import DuckChat.Provenance
import DuckChat.Screens
import DuckChat.World

/-!
# Where requests go, and who typed a say

Whoever writes to a client gets its next requests. As long as there are only the clients and the
servers that never happens, because a server writes to nobody but its neighbours, who wrote to it,
and its users.

The name that a say is shown under comes from the table of a server, and the text from a packet.
Both can be followed back to a line that a client has decoded, since only `main` logs in, and only
with its own name. The line that was decoded is the one that was typed, or that and one byte that a
rejected line has left behind it.

## Main definitions

* `Backed`, `Genuine`, `Earned`, `Housed` — requests, inputs, datagrams and tables that have a line
  or a client program behind them
* `World.Loyal`, `World.Reads` — the invariants

## Main results

* `Housed.earned`, `Housed.react` — what a server owes if it gets what it may rely on
* `World.Loyal.step`, `World.Reads.step` — the step lemmas
* `clients_stay`, `says_are_typed`
-/

set_option autoImplicit false

namespace DuckChat

/-! ### What lines there are behind it -/

/-- The text is that of a line. -/
def SaidBy (lines : List Line) (t : SayText) : Prop :=
  ∃ buff ∈ lines, decodeInput buff.bytes = .say ∧ buff.bytes = t.bytes

/-- A line asks for the channel; for Common `main` does. -/
def JoinedBy (lines : List Line) (c : Name) : Prop :=
  c = common ∨ ∃ buff ∈ lines, decodeInput buff.bytes = .join ∧
    getCommandArg buff.bytes = some c.bytes

/-- What is behind a request of a client that was started under a name. -/
def Backed (u : Username) (lines : List Line) : ClientRequest → Prop
  | .login v => v = u
  | .say _ t => SaidBy lines t
  | .join c => JoinedBy lines c
  | _ => True

section Behind

variable {ι κ : Type} (clientAddr : κ ↪ Sockaddr) (home : κ → ι) (name : κ → Username)
  (decoded : κ → List Line)

/-- A text that was decoded at a client of the name. -/
def Voiced (u : Username) (t : SayText) : Prop := ∃ k, name k = u ∧ SaidBy (decoded k) t

/-- A channel that a client of the name asked for. -/
def Wanted (u : Username) (c : Name) : Prop := ∃ k, name k = u ∧ JoinedBy (decoded k) c

/-- An input that comes from where it may come from, with what there has to be behind it. -/
def Genuine (i : ι) : Input → Prop
  | .datagram a (.client rq) _ _ =>
      ∃ k, a = clientAddr k ∧ home k = i ∧ Backed (name k) (decoded k) rq
  | .datagram a (.s2s m) _ _ =>
      (∀ k, a ≠ clientAddr k) ∧ ∀ x, m = .say x → Voiced name decoded x.reqUsername x.reqText
  | _ => True

/-- A datagram that a server may send: texts go to its own clients, and packets to no client. -/
def Earned (i : ι) (d : Datagram) : Prop :=
  match d.payload with
  | .text x => ∃ k, d.dest = clientAddr k ∧ home k = i ∧ ∀ c u t, x = .say c u t →
      Wanted name decoded (name k) c ∧ Voiced name decoded u t
  | .s2s m =>
      (∀ k, d.dest ≠ clientAddr k) ∧ ∀ x, m = .say x → Voiced name decoded x.reqUsername x.reqText

/-- The tables of a server: its own clients, under their names, in channels that were asked for. -/
structure Housed (i : ι) (s : ServerState) : Prop where
  neighbours : ∀ b ∈ s.neighbours, ∀ k, b ≠ clientAddr k
  users : ∀ v ∈ s.heap, ∃ k, v.address = clientAddr k ∧ v.username = name k ∧ home k = i
  entries : ∀ chnl ∈ s.channels.live, ∀ v, some v ∈ chnl.entries →
    Wanted name decoded v.username chnl.chnlName

end Behind

/-! ### One server -/

section Server

variable {ι κ : Type} {clientAddr : κ ↪ Sockaddr} {home : κ → ι} {name : κ → Username}
  {decoded : κ → List Line} {i : ι} {s s' : ServerState} {inp : Input} {d : Datagram} {a : Sockaddr}
  {rq : ClientRequest}

theorem Genuine.asked (h : Genuine clientAddr home name decoded i inp)
    (ha : inp.asked = some (a, rq)) :
    ∃ k, a = clientAddr k ∧ home k = i ∧ Backed (name k) (decoded k) rq := by
  rcases inp with ⟨b, (rq' | m), drawn, now⟩ | now | now
  · cases ha
    exact h
  · cases ha
  · cases ha
  · cases ha

/-- Who may get a text is a client of the server. -/
theorem Housed.customer (hs : Housed clientAddr home name decoded i s)
    (hi : Genuine clientAddr home name decoded i inp) (ha : a ∈ s.customers inp) :
    ∃ k, a = clientAddr k ∧ home k = i := by
  have huser : a ∈ s.userAddrs → ∃ k, a = clientAddr k ∧ home k = i := by
    intro ha
    obtain ⟨v, hv, rfl⟩ := List.mem_map.mp ha
    obtain ⟨k, hk, -, hhome⟩ := hs.users v hv
    exact ⟨k, hk, hhome⟩
  rcases inp with ⟨b, (rq | m), drawn, now⟩ | now | now
  · rcases List.mem_cons.mp ha with rfl | ha
    · obtain ⟨k, hk, hhome, -⟩ := hi
      exact ⟨k, hk, hhome⟩
    · exact huser ha
  · exact huser ha
  · exact huser ha
  · exact huser ha

/-- Who may get a packet is no client. -/
theorem Housed.peer (hs : Housed clientAddr home name decoded i s)
    (hi : Genuine clientAddr home name decoded i inp) (ha : a ∈ s.peers inp) :
    ∀ k, a ≠ clientAddr k := by
  rcases inp with ⟨b, (rq | m), drawn, now⟩ | now | now
  · exact hs.neighbours a ha
  · rcases List.mem_cons.mp ha with rfl | ha
    · exact hi.1
    · exact hs.neighbours a ha
  · exact hs.neighbours a ha
  · exact hs.neighbours a ha

/-- A say of a user was decoded at a client of the name in the table. -/
theorem Housed.voiced (hs : Housed clientAddr home name decoded i s) {v : User} {c : Name}
    {t : SayText} {drawn : Id} {now : ℤ} (hv : v ∈ s.heap)
    (hi : Genuine clientAddr home name decoded i
      (.datagram v.address (.client (.say c t)) drawn now)) :
    Voiced name decoded v.username t := by
  obtain ⟨k, hk, hname, -⟩ := hs.users v hv
  obtain ⟨k', hk', -, hsaid⟩ := hi
  obtain rfl := clientAddr.injective (hk.symm.trans hk')
  exact ⟨k, hname.symm, hsaid⟩

/-- **What a server sends is earned**, if what it gets is genuine. -/
theorem Housed.earned (hs : Housed clientAddr home name decoded i s)
    (hi : Genuine clientAddr home name decoded i inp) (hd : d ∈ (react s inp).out) :
    Earned clientAddr home name decoded i d := by
  have hsend := sendable_react s inp d hd
  obtain ⟨b, x⟩ := d
  cases x with
  | text x =>
    obtain ⟨k, rfl, hhome⟩ := hs.customer hi hsend.1
    refine ⟨k, rfl, hhome, ?_⟩
    rintro c u t rfl
    obtain ⟨⟨v, hva, hv, chnl, hchnl, rfl, hentry⟩, hwho⟩ := text_of_react hd
    obtain ⟨k', hk', hname, -⟩ := hs.users v hv
    obtain rfl := clientAddr.injective (hva.symm.trans hk')
    refine ⟨hname ▸ hs.entries chnl hchnl v hentry, ?_⟩
    rcases hwho with ⟨a, w, drawn, now, rfl, hw, rfl, rfl⟩ | ⟨a, id, drawn, now, rfl⟩
    · exact hs.voiced hw hi
    · exact hi.2 _ rfl
  | s2s m =>
    refine ⟨hs.peer hi hsend, ?_⟩
    rintro x rfl
    rcases packet_of_react hd with ⟨a, w, now, rfl, hw, rfl, hname⟩ | ⟨a, drawn, now, rfl⟩
    · rw [← hname]
      exact hs.voiced hw hi
    · exact hi.2 _ rfl

/-- **The tables stay that way.** -/
theorem Housed.react (hs : Housed clientAddr home name decoded i s)
    (hi : Genuine clientAddr home name decoded i inp) (hr : (react s inp).result = .ok s') :
    Housed clientAddr home name decoded i s' where
  neighbours := by
    rw [neighbours_of_react hr]
    exact hs.neighbours
  users := by
    have hstep := users_of_react hr
    generalize s'.heap = heap' at hstep
    generalize s'.heapNext = next' at hstep
    cases hstep with
    | kept => exact hs.users
    | loggedIn =>
      refine List.forall_mem_append.mpr ⟨hs.users, fun v hv => ?_⟩
      rw [List.mem_singleton.mp hv]
      obtain ⟨k, hk, hhome, hname⟩ := hi
      exact ⟨k, hk, hname, hhome⟩
    | loggedOut => exact fun v hv => hs.users v (List.mem_of_mem_eraseP hv)
  entries chnl hchnl v hv := by
    rcases entry_of_react hr hchnl hv with
      ⟨old, hold, hname, hin⟩ | ⟨hmem, hask⟩ | ⟨-, old, hold, hname, w, -, hin, hw⟩
    · rw [← hname]
      exact hs.entries old hold v hin
    · obtain ⟨k, hk, hu, -⟩ := hs.users v hmem
      obtain ⟨k', hk', -, hjoined⟩ := hi.asked hask
      obtain rfl := clientAddr.injective (hk.symm.trans hk')
      exact ⟨k, hu.symm, hjoined⟩
    · rw [← hname, ← hw]
      exact hs.entries old hold w hin

end Server

/-! ### More lines -/

section Mono

variable {ι κ : Type} {clientAddr : κ ↪ Sockaddr} {home : κ → ι} {name : κ → Username}
  {decoded decoded' : κ → List Line} {lines lines' : List Line} {i : ι} {s : ServerState}
  {u : Username} {c : Name} {t : SayText} {rq : ClientRequest} {d : Datagram}

theorem SaidBy.mono (h : SaidBy lines t) (hl : lines ⊆ lines') : SaidBy lines' t := by
  obtain ⟨buff, hbuff, hsay⟩ := h
  exact ⟨buff, hl hbuff, hsay⟩

theorem JoinedBy.mono (h : JoinedBy lines c) (hl : lines ⊆ lines') : JoinedBy lines' c := by
  rcases h with rfl | ⟨buff, hbuff, hjoin⟩
  · exact Or.inl rfl
  · exact Or.inr ⟨buff, hl hbuff, hjoin⟩

theorem Backed.mono (h : Backed u lines rq) (hl : lines ⊆ lines') : Backed u lines' rq := by
  cases rq with
  | say c t => exact SaidBy.mono h hl
  | join c => exact JoinedBy.mono h hl
  | _ => exact h

theorem Voiced.mono (h : Voiced name decoded u t) (hl : ∀ k, decoded k ⊆ decoded' k) :
    Voiced name decoded' u t := by
  obtain ⟨k, hk, hsaid⟩ := h
  exact ⟨k, hk, hsaid.mono (hl k)⟩

theorem Wanted.mono (h : Wanted name decoded u c) (hl : ∀ k, decoded k ⊆ decoded' k) :
    Wanted name decoded' u c := by
  obtain ⟨k, hk, hjoined⟩ := h
  exact ⟨k, hk, hjoined.mono (hl k)⟩

theorem Earned.mono (h : Earned clientAddr home name decoded i d)
    (hl : ∀ k, decoded k ⊆ decoded' k) : Earned clientAddr home name decoded' i d := by
  obtain ⟨b, x⟩ := d
  cases x with
  | text x =>
    obtain ⟨k, hk, hhome, hsay⟩ := h
    refine ⟨k, hk, hhome, fun c u t hx => ?_⟩
    obtain ⟨hwanted, hvoiced⟩ := hsay c u t hx
    exact ⟨hwanted.mono hl, hvoiced.mono hl⟩
  | s2s m => exact ⟨h.1, fun x hx => (h.2 x hx).mono hl⟩

theorem Housed.mono (h : Housed clientAddr home name decoded i s)
    (hl : ∀ k, decoded k ⊆ decoded' k) : Housed clientAddr home name decoded' i s where
  neighbours := h.neighbours
  users := h.users
  entries chnl hchnl v hv := (h.entries chnl hchnl v hv).mono hl

end Mono

/-! ### The servers -/

section Servers

variable {ι κ : Type} [DecidableEq ι] (addr : ι ↪ Sockaddr) (clientAddr : κ ↪ Sockaddr)
  (home : κ → ι) (name : κ → Username) (decoded : κ → List Line)

omit [DecidableEq ι] in
/-- The servers, and what is between them. -/
structure Net.Loyal (n : Net ι) : Prop where
  housed : ∀ i s, n.node i = .running s → Housed clientAddr home name decoded i s
  flight : ∀ p ∈ n.flight, (∀ k, p.src ≠ clientAddr k) ∧
    ∀ x, p.msg = .say x → Voiced name decoded x.reqUsername x.reqText
  sent : ∀ e ∈ n.log, ∀ d ∈ e.sent, Earned clientAddr home name decoded e.server d

variable {addr clientAddr home name decoded} {n n' : Net ι} {i : ι} {inp : Input} {x : Action ι}

omit [DecidableEq ι] in
/-- Fewer packets. -/
theorem Net.Loyal.of_subset (h : n.Loyal clientAddr home name decoded) (hnode : n'.node = n.node)
    (hlog : n'.log = n.log) (hflight : ∀ p ∈ n'.flight, p ∈ n.flight) :
    n'.Loyal clientAddr home name decoded where
  housed := by
    rw [hnode]
    exact h.housed
  flight p hp := h.flight p (hflight p hp)
  sent := by
    rw [hlog]
    exact h.sent

omit [DecidableEq ι] in
/-- More lines. -/
theorem Net.Loyal.mono {decoded' : κ → List Line} (h : n.Loyal clientAddr home name decoded)
    (hl : ∀ k, decoded k ⊆ decoded' k) : n.Loyal clientAddr home name decoded' where
  housed i s hs := (h.housed i s hs).mono hl
  flight p hp := ⟨(h.flight p hp).1, fun x hx => ((h.flight p hp).2 x hx).mono hl⟩
  sent e he d hd := (h.sent e he d hd).mono hl

/-- One input. -/
theorem Net.Loyal.act (h : n.Loyal clientAddr home name decoded)
    (hdisj : ∀ j k, addr j ≠ clientAddr k) (hi : Genuine clientAddr home name decoded i inp) :
    (n.act addr i inp).Loyal clientAddr home name decoded := by
  rcases n.act_cases addr i inp with ⟨f, -, ha⟩ | ⟨s, hs, -, hj, hf, hl⟩
  · rw [ha]
    exact h
  have hearned : ∀ d ∈ (react s inp).out, Earned clientAddr home name decoded i d :=
    fun d hd => (h.housed i s hs).earned hi hd
  refine ⟨fun j t ht => ?_, fun p hp => ?_, fun e he => ?_⟩
  · by_cases hji : j = i
    · subst hji
      obtain ⟨s', hs', hr⟩ := Net.exists_of_act_running ht
      exact (h.housed j s' hs').react hi hr
    · exact h.housed j t ((hj j hji).symm.trans ht)
  · rw [hf] at hp
    rcases List.mem_append.mp hp with hp | hp
    · exact h.flight p hp
    · obtain ⟨hsrc, hd⟩ := mem_packets.mp hp
      refine ⟨fun k => ?_, (hearned _ hd).2⟩
      rw [hsrc]
      exact hdisj i k
  · rw [hl] at he
    rcases List.mem_cons.mp he with rfl | he
    · exact hearned
    · exact h.sent e he

/-- **The step lemma** for the servers. -/
theorem Net.Loyal.step (h : n.Loyal clientAddr home name decoded)
    (hdisj : ∀ j k, addr j ≠ clientAddr k) (hst : Net.step addr n x = some n')
    (hrq : ∀ j a rq drawn now, x = .client j a rq drawn now →
      Genuine clientAddr home name decoded j (.datagram a (.client rq) drawn now)) :
    n'.Loyal clientAddr home name decoded := by
  cases x with
  | client j a rq drawn now =>
    cases hst
    exact h.act hdisj (hrq j a rq drawn now rfl)
  | deliver j p now =>
    obtain ⟨⟨hp, -⟩, hst⟩ := Option.ite_none_right_eq_some.mp hst
    cases hst
    have htake : (n.take p).Loyal clientAddr home name decoded :=
      h.of_subset rfl rfl fun q hq => List.mem_of_mem_erase hq
    exact htake.act hdisj (h.flight p hp)
  | timeouts j now =>
    cases hst
    exact h.act hdisj trivial
  | renewal j now =>
    cases hst
    exact h.act hdisj trivial
  | lose p =>
    obtain ⟨-, hst⟩ := Option.ite_none_right_eq_some.mp hst
    cases hst
    exact h.of_subset rfl rfl fun q hq => List.mem_of_mem_erase hq
  | duplicate p =>
    obtain ⟨hp, hst⟩ := Option.ite_none_right_eq_some.mp hst
    cases hst
    refine h.of_subset rfl rfl fun q hq => ?_
    rcases List.mem_cons.mp hq with rfl | hq
    · exact hp
    · exact hq

end Servers

/-! ### The clients -/

/-- What is behind a message, if it is a request. -/
def ClientMessage.Backed (u : Username) (lines : List Line) (m : ClientMessage) : Prop :=
  ∀ rq, m = .request rq → DuckChat.Backed u lines rq

section Clients

variable {u : Username} {lines lines' : List Line} {m : ClientMessage}

theorem ClientMessage.Backed.mono (h : m.Backed u lines) (hl : lines ⊆ lines') :
    m.Backed u lines' := fun rq hrq => DuckChat.Backed.mono (h rq hrq) hl

/-- **What a turn sends has the line behind it**, also if it ends with a fault. -/
theorem backed_of_mem_turn_out {c : Client} {buff : Line} (h : m ∈ (c.turn buff).out) :
    m.Backed u [buff] := by
  intro rq hrq
  cases Client.sends_turn c buff m h with
  | join hk harg =>
    cases hrq
    exact Or.inr ⟨buff, List.mem_singleton_self _, hk, harg⟩
  | say hk ht =>
    cases hrq
    exact ⟨buff, List.mem_singleton_self _, hk, ht⟩
  | fullWho => cases hrq
  | list | who | leave | logout =>
    cases hrq
    exact trivial

theorem backed_firstRequests (u : Username) (lines : List Line) :
    ∀ m ∈ (firstRequests u).map .request, ClientMessage.Backed u lines m := by
  rintro m hm rq rfl
  obtain ⟨rq', hrq, heq⟩ := List.mem_map.mp hm
  cases heq
  rcases List.mem_cons.mp hrq with rfl | hrq
  · exact rfl
  · rw [List.mem_singleton.mp hrq]
    exact Or.inl rfl

end Clients

/-! ### The world -/

section Run

variable {ι κ : Type} (addr : ι ↪ Sockaddr)
  (clientAddr : κ ↪ Sockaddr) (home : κ → ι) (name : κ → Username)

/-- Nobody sends to where they should not, and everything has a line behind it. -/
structure World.Loyal (w : World ι κ) : Prop where
  server : ∀ k, w.server k = addr (home k)
  requests : ∀ m ∈ w.requests, ∃ k, m.src = clientAddr k ∧ m.dst = addr (home k) ∧
    m.body.Backed (name k) (w.decoded k)
  net : w.net.Loyal clientAddr home name w.decoded

/-- What a client has decoded are the lines that were typed at it, or those and one byte; and it is
the lines themselves if none is shorter than a rejected one before it. -/
structure World.Reads (w : World ι κ) (k : κ) : Prop where
  close : List.Forall₂ (fun l buff => buff.bytes = l.bytes ∨ ∃ b, buff.bytes = l.bytes ++ [b])
    (w.typed k) (w.decoded k)
  same : (w.typed k).IsChain Overwrites → w.decoded k = (w.typed k).map Typed.line ∧
    ∀ s, w.client k = some s → s.client.logout = false → s.Holds (w.typed k)
  silent : w.client k = none → w.typed k = []

variable {addr clientAddr home name} {w w' : World ι κ} {x : WorldAction ι κ} {k : κ}

/-- A client sends messages. -/
theorem World.Loyal.ask [DecidableEq κ] (h : w.Loyal addr clientAddr home name) {s : Console}
    {ms : List ClientMessage} (hms : ∀ m ∈ ms, m.Backed (name k) (w.decoded k)) :
    (w.ask clientAddr k s ms).Loyal addr clientAddr home name where
  server := h.server
  requests m hm := by
    rcases List.mem_append.mp hm with hm | hm
    · exact h.requests m hm
    · obtain ⟨m', hm', rfl⟩ := List.mem_map.mp hm
      exact ⟨k, rfl, h.server k, hms m' hm'⟩
  net := h.net

theorem World.subset_note [DecidableEq κ] (w : World ι κ) (k : κ) (l : Typed) (buff : Line)
    (j : κ) : w.decoded j ⊆ (w.note k l buff).decoded j := by
  show w.decoded j ⊆ Function.update w.decoded k (w.decoded k ++ [buff]) j
  by_cases hj : j = k
  · subst hj
    rw [Function.update_self]
    exact List.subset_append_left _ _
  · rw [Function.update_of_ne hj]
    exact List.Subset.refl _

/-- A line more. -/
theorem World.Loyal.note [DecidableEq κ] (h : w.Loyal addr clientAddr home name) {l : Typed}
    {buff : Line} : (w.note k l buff).Loyal addr clientAddr home name where
  server := h.server
  requests m hm := by
    obtain ⟨j, hsrc, hdst, hbacked⟩ := h.requests m hm
    exact ⟨j, hsrc, hdst, hbacked.mono (w.subset_note k l buff j)⟩
  net := h.net.mono (w.subset_note k l buff)

/-- Who writes to a client is its server. -/
theorem World.Loyal.src_eq (h : w.Loyal addr clientAddr home name)
    (hdisj : ∀ i k, addr i ≠ clientAddr k) {src : Sockaddr}
    (hsrc : (∃ m ∈ w.sent addr, m.src = src ∧ m.dst = clientAddr k) ∨
      ∃ m ∈ w.requests, m.src = src ∧ m.dst = clientAddr k) : src = addr (home k) := by
  rcases hsrc with ⟨⟨_, dst, body⟩, hm, rfl, hdst⟩ | ⟨m, hm, -, hdst⟩
  · obtain rfl : dst = clientAddr k := hdst
    obtain ⟨e, he, hsrc, hd⟩ := World.mem_sent.mp hm
    have hearned := h.net.sent e he _ hd
    cases body with
    | text x =>
      obtain ⟨k', hk', hhome, -⟩ := hearned
      rw [← clientAddr.injective hk'] at hhome
      rw [hhome]
      exact hsrc.symm
    | s2s m => exact absurd rfl (hearned.1 k)
  · obtain ⟨k', -, hto, -⟩ := h.requests m hm
    exact absurd (hto.symm.trans hdst) (hdisj _ _)

theorem World.loyal_start {nbrs : ι → List Sockaddr} {unset now : ι → ℤ}
    (hnbrs : ∀ i, ∀ b ∈ nbrs i, ∀ k, b ≠ clientAddr k) :
    (World.start addr home nbrs unset now).Loyal addr clientAddr home name where
  server _ := rfl
  requests _ hm := absurd hm List.not_mem_nil
  net := {
    housed := by
      intro i s hs
      cases hs
      refine ⟨?_, fun v hv => absurd hv List.not_mem_nil, fun chnl hchnl v hv => ?_⟩
      · rw [neighbours_start]
        exact hnbrs i
      · rw [entries_start hchnl] at hv
        exact absurd hv List.not_mem_nil
    flight := fun _ hp => absurd hp List.not_mem_nil
    sent := fun _ he => absurd he List.not_mem_nil }

variable [DecidableEq ι]

omit [DecidableEq ι] in
theorem World.Loyal.of_net {n : Net ι} (h : w.Loyal addr clientAddr home name)
    (hn : n.Loyal clientAddr home name w.decoded) :
    World.Loyal addr clientAddr home name { w with net := n } := ⟨h.server, h.requests, hn⟩

/-- A server that has stopped owes nothing. -/
theorem Net.Loyal.stop {n : Net ι} {decoded : κ → List Line}
    (h : n.Loyal clientAddr home name decoded) (i : ι) (f : Fault) :
    (n.stop i f).Loyal clientAddr home name decoded := by
  rw [Net.stop]
  split
  · exact h
  · refine ⟨fun j s hs => ?_, h.flight, h.sent⟩
    have hs : Function.update n.node i (.faulted f) j = .running s := hs
    by_cases hj : j = i
    · rw [hj, Function.update_self] at hs
      cases hs
    · rw [Function.update_of_ne hj] at hs
      exact h.housed j s hs

variable [DecidableEq κ]

/-- **The step lemma.** -/
theorem World.Loyal.step (h : w.Loyal addr clientAddr home name)
    (hdisj : ∀ i k, addr i ≠ clientAddr k) (hst : w.step addr clientAddr name x = some w') :
    w'.Loyal addr clientAddr home name := by
  cases x with
  | begin k unset =>
    rw [World.step] at hst
    split at hst
    · cases hst
    · cases hst
      exact h.ask (backed_firstRequests _ _)
  | line k l =>
    rw [World.step] at hst
    split at hst
    · cases hst
    · next s _ =>
      obtain ⟨-, hst⟩ := Option.ite_none_left_eq_some.mp hst
      cases hst
      -- the line is there before what is sent for it
      have hnote : (w.note k l (s.buff.line l)).Loyal addr clientAddr home name := h.note
      refine hnote.ask fun m hm => ?_
      rw [Console.turn_out] at hm
      refine (backed_of_mem_turn_out hm).mono fun buff hbuff => ?_
      rw [List.mem_singleton.mp hbuff]
      show s.buff.line l ∈ Function.update w.decoded k (w.decoded k ++ [s.buff.line l]) k
      rw [Function.update_self]
      exact List.mem_append_right _ (List.mem_singleton_self _)
  | receive k src =>
    rw [World.step] at hst
    obtain ⟨hsrc, hst⟩ := Option.ite_none_right_eq_some.mp hst
    cases hst
    refine ⟨fun j => ?_, h.requests, h.net⟩
    by_cases hj : j = k
    · subst hj
      rw [h.src_eq hdisj hsrc]
      exact Function.update_self ..
    · exact (Function.update_of_ne hj ..).trans (h.server j)
  | arrive i m drawn now =>
    rw [World.step] at hst
    obtain ⟨⟨hm, hdst⟩, hst⟩ := Option.ite_none_right_eq_some.mp hst
    obtain ⟨k, hsrc, hto, hbacked⟩ := h.requests m hm
    obtain ⟨src, dst, body⟩ := m
    cases body with
    | request rq =>
      rw [World.hear] at hst
      obtain ⟨n, hn, rfl⟩ := Option.map_eq_some_iff.mp hst
      refine h.of_net (h.net.step hdisj hn fun j a rq drawn now heq => ?_)
      cases heq
      exact ⟨k, hsrc, addr.injective (hto.symm.trans hdst), hbacked _ rfl⟩
    | fullWho f =>
      cases hst
      exact h.of_net (h.net.stop i _)
  | servers x =>
    rw [World.step] at hst
    obtain ⟨hx, hst⟩ := Option.ite_none_left_eq_some.mp hst
    obtain ⟨n, hn, rfl⟩ := Option.map_eq_some_iff.mp hst
    refine h.of_net (h.net.step hdisj hn fun j a rq drawn now heq => ?_)
    subst heq
    exact absurd rfl hx

theorem World.loyal_of_run {nbrs : ι → List Sockaddr} {unset now : ι → ℤ}
    {ok : World ι κ → WorldAction ι κ → Prop} {as : List (WorldAction ι κ)}
    (hdisj : ∀ i k, addr i ≠ clientAddr k) (hnbrs : ∀ i, ∀ b ∈ nbrs i, ∀ k, b ≠ clientAddr k)
    (h : Run (World.step addr clientAddr name) ok (World.start addr home nbrs unset now) as w) :
    w.Loyal addr clientAddr home name :=
  h.invariant (fun _ _ _ hw _ hst => hw.step hdisj hst) (World.loyal_start hnbrs)

end Run

/-! ### What was typed -/

section Typed

variable {ι κ : Type} {addr : ι ↪ Sockaddr} {clientAddr : κ ↪ Sockaddr} {name : κ → Username}
  {w w' : World ι κ} {x : WorldAction ι κ} {k : κ}

/-- The client stays as it is. -/
theorem World.Reads.congr (h : w.Reads k) (hclient : w'.client k = w.client k)
    (htyped : w'.typed k = w.typed k) (hdecoded : w'.decoded k = w.decoded k) : w'.Reads k where
  close := by
    rw [htyped, hdecoded]
    exact h.close
  same := by
    rw [htyped, hdecoded, hclient]
    exact h.same
  silent := by
    rw [htyped, hclient]
    exact h.silent

/-- A line is typed. -/
theorem World.Reads.line (h : w.Reads k) {s : Console} (hs : w.client k = some s)
    (hl : s.client.logout = false) {l : Typed} (hclient : w'.client k = some (s.after l))
    (htyped : w'.typed k = w.typed k ++ [l])
    (hdecoded : w'.decoded k = w.decoded k ++ [s.buff.line l]) : w'.Reads k where
  close := by
    rw [htyped, hdecoded]
    exact List.rel_append h.close (.cons (s.line_cases l) .nil)
  same := by
    rw [htyped, hdecoded, hclient]
    intro hover
    obtain ⟨hsame, hholds⟩ := h.same (List.isChain_append.mp hover).1
    have hholds := hholds s hs hl
    refine ⟨?_, fun s' hs' hl' => ?_⟩
    · rw [hsame, (hholds.line_eq hover).1, List.map_append]
      rfl
    · obtain rfl := Option.some.inj hs'
      rw [Console.after] at hl' ⊢
      split at hl'
      · next hturn => exact hholds.turn hover hl hturn
      · cases hl'
  silent hnone := by
    rw [hclient] at hnone
    cases hnone

theorem World.reads_start {home : κ → ι} {nbrs : ι → List Sockaddr} {unset now : ι → ℤ} (k : κ) :
    (World.start addr home nbrs unset now).Reads k where
  close := .nil
  same _ := ⟨rfl, fun s hs => by cases hs⟩
  silent _ := rfl

variable [DecidableEq ι] [DecidableEq κ]

/-- **The step lemma.** -/
theorem World.Reads.step (h : w.Reads k) (hx : x.Fresh)
    (hst : w.step addr clientAddr name x = some w') : w'.Reads k := by
  cases x with
  | begin j unset =>
    obtain rfl : unset = .cleared := hx
    rw [World.step] at hst
    split at hst
    · cases hst
    · next hnone =>
      cases hst
      by_cases hj : k = j
      · subst hj
        have hnil := h.silent hnone
        refine ⟨h.close, fun hover => ⟨(h.same hover).1, fun s hs _ => ?_⟩, fun _ => hnil⟩
        have hs : Function.update w.client k (some (Console.start .cleared)) k = some s := hs
        rw [Function.update_self] at hs
        cases hs
        show (Console.start .cleared).Holds (w.typed k)
        rw [hnil]
        exact Console.holds_start
      · exact h.congr (Function.update_of_ne hj ..) rfl rfl
  | line j l =>
    rw [World.step] at hst
    split at hst
    · cases hst
    · next s hs =>
      obtain ⟨hl, hst⟩ := Option.ite_none_left_eq_some.mp hst
      cases hst
      by_cases hj : k = j
      · subst hj
        exact h.line hs (Bool.eq_false_of_not_eq_true hl) (Function.update_self ..)
          (Function.update_self ..) (Function.update_self ..)
      · exact h.congr (Function.update_of_ne hj ..) (Function.update_of_ne hj ..)
          (Function.update_of_ne hj ..)
  | receive j src =>
    obtain ⟨-, hst⟩ := Option.ite_none_right_eq_some.mp hst
    cases hst
    exact h.congr rfl rfl rfl
  | arrive i m drawn now =>
    obtain ⟨-, hst⟩ := Option.ite_none_right_eq_some.mp hst
    obtain ⟨src, dst, body⟩ := m
    cases body with
    | request rq =>
      rw [World.hear] at hst
      obtain ⟨n, -, rfl⟩ := Option.map_eq_some_iff.mp hst
      exact h.congr rfl rfl rfl
    | fullWho f =>
      cases hst
      exact h.congr rfl rfl rfl
  | servers x =>
    obtain ⟨-, hst⟩ := Option.ite_none_left_eq_some.mp hst
    obtain ⟨n, -, rfl⟩ := Option.map_eq_some_iff.mp hst
    exact h.congr rfl rfl rfl

theorem World.reads_of_run {home : κ → ι} {nbrs : ι → List Sockaddr} {unset now : ι → ℤ}
    {as : List (WorldAction ι κ)} (hfresh : ∀ x ∈ as, x.Fresh)
    (h : Run (World.step addr clientAddr name) (fun _ _ => True)
      (World.start addr home nbrs unset now) as w) (k : κ) : w.Reads k :=
  (h.restrict hfresh).invariant (P := fun w => w.Reads k)
    (fun _ _ _ hw hx hst => hw.step hx.2 hst) (World.reads_start k)

omit [DecidableEq ι] [DecidableEq κ] in
/-- A line that was decoded is one that was typed, or that and one byte. -/
theorem World.Reads.exists_typed (h : w.Reads k) {buff : Line} (hbuff : buff ∈ w.decoded k) :
    ∃ l ∈ w.typed k, buff.bytes = l.bytes ∨ ∃ b, buff.bytes = l.bytes ++ [b] :=
  exists_of_forall₂ h.close hbuff

omit [DecidableEq ι] [DecidableEq κ] in
theorem World.Reads.exists_line (h : w.Reads k) (hover : (w.typed k).IsChain Overwrites)
    {buff : Line} (hbuff : buff ∈ w.decoded k) : ∃ l ∈ w.typed k, buff = l.line := by
  rw [(h.same hover).1] at hbuff
  obtain ⟨l, hl, rfl⟩ := List.mem_map.mp hbuff
  exact ⟨l, hl, rfl⟩

end Typed

/-! ### Where everything goes -/
/-- **Clients stay with their server.** If no client has the address of a server or of a neighbour,
then in every run, over wires that lose, delay, reorder and double, with any servers faulting: a
client sends to the server that it was started with, however often the address has been
overwritten; so all requests go to the server of their client, all texts to a client of the server
that sent them, and no packet to a client. -/
theorem clients_stay {ι κ : Type} [DecidableEq ι] [DecidableEq κ] (addr : ι ↪ Sockaddr)
    (clientAddr : κ ↪ Sockaddr) (home : κ → ι) (name : κ → Username) (nbrs : ι → List Sockaddr)
    (unset now : ι → ℤ) (hdisj : ∀ i k, addr i ≠ clientAddr k)
    (hnbrs : ∀ i, ∀ b ∈ nbrs i, ∀ k, b ≠ clientAddr k) (as : List (WorldAction ι κ))
    (w : World ι κ)
    (h : Run (World.step addr clientAddr name) (fun _ _ => True)
      (World.start addr home nbrs unset now) as w) :
    (∀ k, w.server k = addr (home k)) ∧
      (∀ m ∈ w.requests, ∃ k, m.src = clientAddr k ∧ m.dst = addr (home k)) ∧
      (∀ m ∈ w.sent addr, ∀ t, m.body = .text t →
        ∃ k, m.dst = clientAddr k ∧ m.src = addr (home k)) ∧
      ∀ m ∈ w.sent addr, ∀ x, m.body = .s2s x → ∀ k, m.dst ≠ clientAddr k := by
  have hw := World.loyal_of_run hdisj hnbrs h
  refine ⟨hw.server, fun m hm => ?_, fun m hm t ht => ?_, fun m hm x hx => ?_⟩
  · obtain ⟨k, hsrc, hdst, -⟩ := hw.requests m hm
    exact ⟨k, hsrc, hdst⟩
  · obtain ⟨e, he, hsrc, hd⟩ := World.mem_sent.mp hm
    rw [ht] at hd
    obtain ⟨k, hk, hhome, -⟩ := hw.net.sent e he _ hd
    exact ⟨k, hk, hsrc.symm.trans (congrArg addr hhome.symm)⟩
  · obtain ⟨e, he, -, hd⟩ := World.mem_sent.mp hm
    rw [hx] at hd
    exact (hw.net.sent e he _ hd).1

namespace Three

/-- Three clients, each at its own server. -/
def worldStart : World (Fin 3) (Fin 3) :=
  World.start addr id line.nbrAddrs (fun _ => 0) fun _ => 0

/-- A client starts, and what `main` sends arrives. -/
def enters (k : Fin 3) : List (WorldAction (Fin 3) (Fin 3)) :=
  [.begin k .cleared, .arrive k ⟨client k, addr k, .request (.login (username k))⟩ 0 0,
    .arrive k ⟨client k, addr k, .request (.join common)⟩ 0 0]

/-- Client 0 types a line, and client 2 gets it. -/
def across : List (WorldAction (Fin 3) (Fin 3)) :=
  [0, 1, 2].flatMap enters ++ [.line 0 helloTyped,
    .arrive 0 ⟨client 0, addr 0, .request (.say common hello)⟩ 1 0,
    .servers (deliver 0 1 (sayBy 0 common 1)), .servers (deliver 1 2 (sayBy 0 common 1)),
    .receive 2 (addr 2)]

end Three

open Three in
theorem clients_stay_on_line :
    ∃ w, Run (World.step addr clientAddr username) (fun _ _ => True) worldStart across w ∧
      w.server 2 = addr 2 := by
  have h : (execute (World.step addr clientAddr username) (fun _ _ => True) worldStart
      across).isSome = true := by decide +kernel
  obtain ⟨w, hw⟩ := Option.isSome_iff_exists.mp h
  have hrun := run_of_execute hw
  exact ⟨w, hrun, (clients_stay addr clientAddr id username line.nbrAddrs _ _ (by decide)
    (by decide) across w hrun).1 2⟩

/-- **Says are typed.** In the same runs, with buffers that are clear at the start, whatever a
client is sent as said by somebody was typed at a client that was started under that name: it is a
line, or a line and one byte. If no line is shorter than a rejected one before it, it is a line as
it was typed; and then a client of the receiver's name asked for the channel, in a line as it was
typed, which is the receiver if no two clients have one name. -/
theorem says_are_typed {ι κ : Type} [DecidableEq ι] [DecidableEq κ] (addr : ι ↪ Sockaddr)
    (clientAddr : κ ↪ Sockaddr) (home : κ → ι) (name : κ → Username) (nbrs : ι → List Sockaddr)
    (unset now : ι → ℤ) (hdisj : ∀ i k, addr i ≠ clientAddr k)
    (hnbrs : ∀ i, ∀ b ∈ nbrs i, ∀ k, b ≠ clientAddr k) (as : List (WorldAction ι κ))
    (w : World ι κ) (hfresh : ∀ x ∈ as, x.Fresh)
    (h : Run (World.step addr clientAddr name) (fun _ _ => True)
      (World.start addr home nbrs unset now) as w) :
    ∀ m ∈ w.sent addr, ∀ c u t, m.body = .text (.say c u t) →
      (∃ k, name k = u ∧ ∃ l ∈ w.typed k, t.bytes = l.bytes ∨ ∃ b, t.bytes = l.bytes ++ [b]) ∧
      ((∀ k, (w.typed k).IsChain Overwrites) →
        (∃ k, name k = u ∧ ∃ l ∈ w.typed k, decodeInput l.bytes = .say ∧ t.bytes = l.bytes) ∧
        ∃ k k', m.dst = clientAddr k ∧ name k' = name k ∧
          (c = common ∨ ∃ l ∈ w.typed k', decodeInput l.bytes = .join ∧
            getCommandArg l.bytes = some c.bytes)) := by
  intro m hm c u t ht
  have hreads := World.reads_of_run hfresh h
  obtain ⟨e, he, -, hd⟩ := World.mem_sent.mp hm
  rw [ht] at hd
  obtain ⟨k, hk, -, hsay⟩ := (World.loyal_of_run hdisj hnbrs h).net.sent e he _ hd
  obtain ⟨⟨k', hname, hjoined⟩, k'', hname'', buff, hbuff, hdecoded, htext⟩ := hsay c u t rfl
  constructor
  · obtain ⟨l, hl, hclose⟩ := (hreads k'').exists_typed hbuff
    exact ⟨k'', hname'', l, hl, htext ▸ hclose⟩
  · intro hover
    obtain ⟨l, hl, rfl⟩ := (hreads k'').exists_line (hover k'') hbuff
    refine ⟨⟨k'', hname'', l, hl, hdecoded, htext.symm⟩, k, k', hk, hname, ?_⟩
    rcases hjoined with hc | ⟨buff', hbuff', hjoin, harg⟩
    · exact Or.inl hc
    · obtain ⟨l', hl', rfl⟩ := (hreads k').exists_line (hover k') hbuff'
      exact Or.inr ⟨l', hl', hjoin, harg⟩

open Three in
theorem says_are_typed_on_line :
    ∃ w, Run (World.step addr clientAddr username) (fun _ _ => True) worldStart across w ∧
      ∃ k, username k = username 0 ∧ ∃ l ∈ w.typed k, decodeInput l.bytes = .say ∧
        hello.bytes = l.bytes := by
  have hfresh : ∀ x ∈ across, x.Fresh := by
    simp [across, enters, WorldAction.Fresh]
  have h : (execute (World.step addr clientAddr username) (fun _ _ => True) worldStart
      across).any (fun w => ⟨addr 2, client 2, .text (.say common (username 0) hello)⟩ ∈
        w.sent addr ∧ ∀ k, (w.typed k).IsChain Overwrites) = true := by decide +kernel
  obtain ⟨w, hrun, hw⟩ := exists_run_of_execute h
  obtain ⟨hsent, hover⟩ := of_decide_eq_true hw
  exact ⟨w, hrun, ((says_are_typed addr clientAddr id username line.nbrAddrs _ _ (by decide)
    (by decide) across w hfresh hrun _ hsent _ _ _ rfl).2 hover).1⟩

end DuckChat
