import DuckChat.Provenance

/-!
# Where channels come from

Servers make no names up. A channel in a table of channels, in the subscriptions of a neighbour, in
a packet or in a list that a client is sent is Common, or a client somewhere asked to join it. What
one server does adds only the name of a join of a client or the name in a packet to the names that
it knows, and sends only such names on.

## Main definitions

* `ServerState.Knows` — a name is in one of the tables
* `Input.Brings` — a name comes with an input
* `Founded` — a client asked for the channel

## Main results

* `knows_of_react`, `sends_react_known` — what one server does with names
* `channels_have_founders`
-/

set_option autoImplicit false

namespace DuckChat

/-- The channel that a packet is about. -/
def S2S.channel : S2S → Name
  | .join c => c
  | .leave c => c
  | .say m => m.reqChannel

/-- The name is in the table of channels or among the subscriptions of a neighbour. -/
def ServerState.Knows (s : ServerState) (c : Name) : Prop :=
  c ∈ s.names ∨ ∃ srvr ∈ s.cnnctSrvrs, c ∈ srvr.subs

/-- The name comes with a join of a client, or with a packet. -/
def Input.Brings (i : Input) (c : Name) : Prop :=
  (∃ a, i.asked = some (a, .join c)) ∨
    ∃ src m drawn now, i = .datagram src (.s2s m) drawn now ∧ m.channel = c

/-! ### One server -/

section Server

variable {s s' : ServerState} {i : Input} {a b : Sockaddr} {c d : Name} {m : SayS2S} {now : ℤ}
  {t : SayText} {drawn : Id}

/-- Tables whose names are among the names before. -/
theorem ServerState.Knows.of_subset (h : s'.Knows c) (hn : ∀ d ∈ s'.names, d ∈ s.names)
    (hs : s'.cnnctSrvrs = s.cnnctSrvrs) : s.Knows c := by
  rcases h with h | h
  · exact Or.inl (hn c h)
  · rw [hs] at h
    exact Or.inr h

theorem knows_reqServJoin (h : (reqServJoin s a d now).result = .ok s') (hc : s'.Knows c) :
    s.Knows c ∨ c = d := by
  obtain ⟨srvr, srvr', chnls, hsrvr, hnote, hchnls, rfl⟩ := reqServJoin_ok h
  rcases hc with hc | ⟨x, hx, hc⟩
  · rcases hchnls with ⟨-, rfl⟩ | ⟨-, hadd⟩
    · exact Or.inl (Or.inl hc)
    · have hnames : chnlNames chnls = s.names ++ [d] := chnlNames_addChnl hadd
      have hc : c ∈ chnlNames chnls := hc
      rw [hnames] at hc
      rcases List.mem_append.mp hc with hc | hc
      · exact Or.inl (Or.inl hc)
      · exact Or.inr (List.mem_singleton.mp hc)
  · rcases mem_replaceFirst hx with rfl | hx
    · rcases (mem_subs_noteJoin hnote c).mp hc with hc | hc
      · exact Or.inl (Or.inr ⟨srvr, List.mem_of_find?_eq_some hsrvr, hc⟩)
      · exact Or.inr hc
    · exact Or.inl (Or.inr ⟨x, hx, hc⟩)

theorem knows_reqServLeave (h : (reqServLeave s a d).result = .ok s') (hc : s'.Knows c) :
    s.Knows c := by
  obtain ⟨srvr, hsrvr, -, rfl⟩ := exists_of_reqServLeave h
  rcases hc with hc | ⟨x, hx, hc⟩
  · exact Or.inl hc
  · rcases mem_replaceFirst hx with rfl | hx
    · exact Or.inr ⟨srvr, List.mem_of_find?_eq_some hsrvr,
        (within_setNumChnnls srvr _).subs.mem hc⟩
    · exact Or.inr ⟨x, hx, hc⟩

theorem knows_timeoutScan (h : (timeoutScan s now).result = .ok s') (hc : s'.Knows c) :
    s.Knows c := by
  obtain ⟨srvs, hsrvs, h⟩ := Emit.bind_eq_ok_iff.mp h
  cases h
  rcases hc with hc | ⟨x, hx, hc⟩
  · exact Or.inl hc
  · obtain ⟨srvr, hmem, hwithin⟩ := exists_rel_of_mem (within_timeoutServers hsrvs) hx
    exact Or.inr ⟨srvr, hmem, hwithin.subs.mem hc⟩

/-- **Names that are new to a server** came with the input. -/
theorem knows_of_react (h : (react s i).result = .ok s') (hc : s'.Knows c) :
    s.Knows c ∨ i.Brings c := by
  cases outcome_of_react h with
  | login h =>
    exact Or.inl (hc.of_subset (by rw [names_reqLogin h]; exact fun _ hd => hd) (reqLogin_ok h).1)
  | logout h =>
    exact Or.inl (hc.of_subset (by rw [(reqLogout_ok h).2.2]; exact fun _ hd => hd)
      (reqLogout_ok h).1)
  | @join _ a d drawn now h =>
    rcases hc with hc | hc
    · rw [names_reqJoin h] at hc
      split at hc
      · exact Or.inl (Or.inl hc)
      · rcases List.mem_append.mp hc with hc | hc
        · exact Or.inl (Or.inl hc)
        · rw [List.mem_singleton.mp hc]
          exact Or.inr (Or.inl ⟨a, rfl⟩)
    · rw [(reqJoin_ok h).1] at hc
      exact Or.inl (Or.inr hc)
  | leave h =>
    have hs : s'.cnnctSrvrs = s.cnnctSrvrs := by
      obtain ⟨_, rfl⟩ := channels_of_reqLeave h
      rfl
    refine Or.inl (hc.of_subset (fun d hd => ?_) hs)
    rcases names_reqLeave h with hn | ⟨_, -, -, hn⟩
    · rwa [← hn]
    · rw [hn] at hd
      exact List.mem_of_mem_erase hd
  | servJoin h =>
    exact (knows_reqServJoin h hc).imp_right fun hd => Or.inr ⟨_, _, _, _, rfl, hd.symm⟩
  | servLeave h => exact Or.inl (knows_reqServLeave h hc)
  | timeouts h => exact Or.inl (knows_timeoutScan h hc)
  | renewal h =>
    exact Or.inl (hc.of_subset (by rw [(renewalPass_ok h).2.2.1]; exact fun _ hd => hd)
      (renewalPass_ok h).1)
  | recorded => exact Or.inl hc
  | idle => exact Or.inl hc

/-- The names that a datagram has are names of its server. -/
def Datagram.Names (P : Name → Prop) (d : Datagram) : Prop :=
  (∀ m, d.payload = .s2s m → P m.channel) ∧
    ∀ names, d.payload = .text (.list names) → ∀ c ∈ names, P c

theorem Datagram.names_s2s {P : Name → Prop} {m : S2S} (h : P m.channel) :
    Datagram.Names P ⟨b, .s2s m⟩ := by
  refine ⟨fun m' hm => ?_, fun names hn => ?_⟩
  · cases hm
    exact h
  · cases hn

/-- Texts that are no lists have no names. -/
theorem Datagram.names_text {P : Name → Prop} {x : Text} (h : ∀ names, x ≠ .list names) :
    Datagram.Names P ⟨b, .text x⟩ := by
  refine ⟨fun m hm => ?_, fun names hn => ?_⟩
  · cases hm
  · cases hn
    exact absurd rfl (h names)

theorem sends_broadcast_names {P : Name → Prop} {x : S2S} (h : P x.channel) :
    (broadcast s x).Sends (Datagram.Names P) :=
  Emit.sends_emitAll fun d hd => by
    obtain ⟨b, -, rfl⟩ := List.mem_map.mp hd
    exact Datagram.names_s2s h

theorem sends_reqSay_names : (reqSay s a c t drawn).Sends (Datagram.Names s.Knows) := by
  rintro ⟨b, x⟩ hd
  cases x with
  | text x =>
    refine Datagram.names_text fun names hx => ?_
    subst hx
    rcases sends_reqSay _ hd with ⟨_, hx⟩ | ⟨_, _, -, -, -, heq⟩ | ⟨_, -, -, hx⟩
    · cases hx
    · cases heq
    · cases hx
  | s2s x =>
    refine Datagram.names_s2s ?_
    rcases sends_reqSay _ hd with ⟨_, hx⟩ | ⟨_, _, -, -, -, heq⟩ | ⟨w, -, -, hx⟩
    · cases hx
    · cases heq
    · cases hx
      obtain ⟨⟨srvr, hs, -, hc⟩, -⟩ := mem_say_out_reqSay hd
      exact Or.inr ⟨srvr, hs, hc⟩

theorem sends_reqLeave_names : (reqLeave s a c).Sends (Datagram.Names s.Knows) := by
  rw [reqLeave]
  split
  · refine Emit.Sends.bind (Emit.sends_emit ?_) fun _ _ => Emit.sends_pure _
    exact Datagram.names_text fun names h => by cases h
  · next chnl hf =>
    refine (Emit.sends_lift _).bind fun r hr => ?_
    dsimp only
    split
    · have hname : r.2.chnlName = c := (removeUserOf_ok hr).1.trans (findChannel_some hf).2
      refine Emit.Sends.bind (sends_broadcast_names ?_) fun _ _ => Emit.sends_pure _
      show s.Knows r.2.chnlName
      rw [hname]
      exact Or.inl (mem_chnlNames_of_find hf)
    · exact Emit.sends_pure _

theorem sends_reqWho_names {P : Name → Prop} : (reqWho s a c).Sends (Datagram.Names P) := by
  rw [reqWho]
  split
  · exact Emit.sends_lift _
  · split
    · refine Emit.Sends.bind (Emit.sends_emit ?_) fun _ _ => Emit.sends_pure _
      exact Datagram.names_text fun names h => by cases h
    · refine (Emit.sends_lift _).bind fun _ _ =>
        Emit.Sends.bind (Emit.sends_emit ?_) fun _ _ => Emit.sends_pure _
      exact Datagram.names_text fun names h => by cases h

theorem sends_reqServSay_names :
    (reqServSay s a m).Sends (Datagram.Names fun c => c = m.reqChannel) := by
  have back : Datagram.Names (fun c => c = m.reqChannel) ⟨a, .s2s (s2sFillLeave m.reqChannel)⟩ :=
    Datagram.names_s2s rfl
  refine (Emit.sends_lift _).bind fun dup _ => ?_
  split
  · exact Emit.Sends.bind (Emit.sends_emit back) fun _ _ => Emit.sends_pure _
  · refine (Emit.sends_lift _).bind fun ids _ => (Emit.sends_lift _).bind fun active _ => ?_
    dsimp only
    split
    · exact Emit.Sends.bind (Emit.sends_emit back) fun _ _ => Emit.sends_pure _
    · refine Emit.Sends.bind (fun d hd => ?_) fun _ _ =>
        (Emit.sends_emitAll fun d hd => ?_).bind fun _ _ => Emit.sends_pure _
      · obtain ⟨v, -, -, rfl⟩ := sends_deliverLoop d hd
        exact Datagram.names_text fun names h => by cases h
      · obtain ⟨srvr, -, rfl⟩ := List.mem_map.mp hd
        exact Datagram.names_s2s rfl

/-- **The names that a server sends** it knew, or they came with the input. -/
theorem sends_react_known :
    (react s i).Sends (Datagram.Names fun c => s.Knows c ∨ i.Brings c) := by
  have mono : ∀ {P Q : Name → Prop} {d : Datagram}, (∀ c, P c → Q c) → d.Names P → d.Names Q :=
    fun h hd => ⟨fun m hm => h _ (hd.1 m hm), fun names hn c hc => h _ (hd.2 names hn c hc)⟩
  have silent : ∀ {out : List Datagram} {P : Name → Prop}, out = [] → ∀ d ∈ out, d.Names P := by
    rintro _ _ rfl d hd
    exact absurd hd List.not_mem_nil
  rcases i with ⟨a, (rq | (c | c | m)), drawn, now⟩ | now | now
  · cases rq with
    | login u => exact silent (reqLogin_out s a u)
    | logout => exact silent (reqLogout_out s a)
    | join c =>
      exact (sends_broadcast_names (Or.inr (Or.inl ⟨a, rfl⟩))).bind fun _ _ =>
        (Emit.sends_lift _).bind fun _ _ => (Emit.sends_lift _).bind fun _ _ => Emit.sends_pure _
    | leave c => exact fun d hd => mono (fun _ => Or.inl) (sends_reqLeave_names d hd)
    | say c t => exact fun d hd => mono (fun _ => Or.inl) (sends_reqSay_names d hd)
    | list =>
      refine Emit.Sends.bind (Emit.sends_emit ⟨fun m hm => ?_, fun names hn c hc => ?_⟩)
        fun _ _ => Emit.sends_pure _
      · cases hm
      · cases hn
        exact Or.inl (Or.inl hc)
    | who c => exact sends_reqWho_names
    | other k => exact Emit.sends_pure _
  · have hbrings : (Input.datagram a (.s2s (.join c)) drawn now).Brings c :=
      Or.inr ⟨a, _, drawn, now, rfl, rfl⟩
    refine (Emit.sends_lift _).bind fun _ _ => (Emit.sends_lift _).bind fun _ _ => ?_
    dsimp only
    split
    · exact Emit.sends_pure _
    · exact (Emit.sends_lift _).bind fun _ _ =>
        Emit.Sends.bind (sends_broadcast_names (Or.inr hbrings)) fun _ _ => Emit.sends_pure _
  · exact silent (reqServLeave_cases s a c).1
  · refine fun d hd => mono (fun c hc => Or.inr ?_) (sends_reqServSay_names d hd)
    exact Or.inr ⟨a, _, drawn, now, rfl, hc.symm⟩
  · exact silent (timeoutScan_out s now)
  · intro d hd
    obtain ⟨c, hc, b, -, rfl⟩ := mem_renewalPass_out hd
    exact Datagram.names_s2s (Or.inl (Or.inl hc))

end Server

/-! ### The network -/

section Network

variable {ι : Type}

/-- A client asked for the channel somewhere, or it is Common. -/
def Founded (c : Name) (log : List (Event ι)) : Prop :=
  c = common ∨ Once (fun e _ => ∃ a, e.input.asked = some (a, .join c)) log

theorem Founded.cons {c : Name} {log : List (Event ι)} (h : Founded c log) (e : Event ι) :
    Founded c (e :: log) := h.imp_right fun h => h.cons e

/-- All names in tables and on the wires were asked for. -/
structure NamesFounded (n : Net ι) : Prop where
  known : ∀ i s, n.node i = .running s → ∀ c, s.Knows c → Founded c n.log
  flight : ∀ p ∈ n.flight, Founded p.msg.channel n.log

variable [DecidableEq ι] {addr : ι ↪ Sockaddr} {n n' : Net ι} {i : ι} {inp : Input}
  {s : ServerState} {c : Name}

omit [DecidableEq ι] in
/-- A name that comes with an input was asked for, at the latest with the input. -/
theorem founded_of_brings (h : inp.Brings c) {sent : List Datagram} {log : List (Event ι)}
    (hp : ∀ src m drawn now, inp = .datagram src (.s2s m) drawn now → Founded m.channel log) :
    Founded c (⟨i, inp, sent⟩ :: log) := by
  rcases h with ⟨a, hask⟩ | ⟨src, m, drawn, now, hinp, rfl⟩
  · exact Or.inr (Or.inl ⟨a, hask⟩)
  · exact (hp src m drawn now hinp).cons _

omit [DecidableEq ι] in
/-- What an event sends has names that were asked for. -/
theorem NamesFounded.sends (h : NamesFounded n) (hs : n.node i = .running s)
    (hp : ∀ src m drawn now, inp = .datagram src (.s2s m) drawn now → Founded m.channel n.log) :
    ∀ d ∈ (react s inp).out, d.Names fun c => Founded c (⟨i, inp, (react s inp).out⟩ :: n.log) := by
  have hfounded : ∀ c, s.Knows c ∨ inp.Brings c →
      Founded c (⟨i, inp, (react s inp).out⟩ :: n.log) := by
    rintro c (hc | hc)
    · exact (h.known i s hs c hc).cons _
    · exact founded_of_brings hc hp
  intro d hd
  obtain ⟨hm, hlist⟩ := sends_react_known d hd
  exact ⟨fun m hx => hfounded _ (hm m hx), fun names hx c hc => hfounded c (hlist names hx c hc)⟩

/-- **The step lemma.** -/
theorem NamesFounded.act (h : NamesFounded n)
    (hp : ∀ src m drawn now, inp = .datagram src (.s2s m) drawn now → Founded m.channel n.log) :
    NamesFounded (n.act addr i inp) := by
  rcases n.act_cases addr i inp with ⟨f, -, ha⟩ | ⟨s, hs, -, -, hf, hl⟩
  · rw [ha]
    exact h
  refine ⟨fun j t ht c hc => ?_, fun p hpf => ?_⟩
  · rw [hl]
    by_cases hj : j = i
    · subst hj
      obtain ⟨s', hs', hr⟩ := Net.exists_of_act_running ht
      rw [hs] at hs'
      cases hs'
      rcases knows_of_react hr hc with hc | hc
      · exact (h.known j s hs c hc).cons _
      · exact founded_of_brings hc hp
    · rw [Net.node_act_of_ne hj] at ht
      exact (h.known j t ht c hc).cons _
  · rw [hl]
    rw [hf] at hpf
    rcases List.mem_append.mp hpf with hpf | hpf
    · exact (h.flight p hpf).cons _
    · exact (h.sends hs hp _ (mem_packets.mp hpf).2).1 _ rfl

/-- One action: the invariant is kept, and a new event sends names that were asked for. -/
theorem NamesFounded.step (h : NamesFounded n) {x : Action ι} (hst : Net.step addr n x = some n') :
    NamesFounded n' ∧ (n'.log = n.log ∨
      ∃ e, n'.log = e :: n.log ∧ ∀ d ∈ e.sent, d.Names fun c => Founded c (e :: n.log)) := by
  have of_subset : ∀ {n₀ : Net ι}, n₀.node = n.node → n₀.log = n.log →
      (∀ p ∈ n₀.flight, p ∈ n.flight) → NamesFounded n₀ := by
    intro n₀ hnode hlog hflight
    exact ⟨by rw [hnode, hlog]; exact h.known, by
      rw [hlog]
      exact fun p hp => h.flight p (hflight p hp)⟩
  rcases Net.step_cases hst with
    ⟨n₀, i, inp, hnode, hlog, hflight, hp, rfl⟩ | ⟨hnode, hlog, hflight⟩
  · have h₀ := of_subset hnode hlog hflight
    have hfounded : ∀ src m drawn now, inp = .datagram src (.s2s m) drawn now →
        Founded m.channel n₀.log := by
      intro src m drawn now hinp
      rw [hlog]
      exact h.flight _ (hp src m drawn now hinp)
    refine ⟨h₀.act hfounded, ?_⟩
    rcases n₀.act_cases addr i inp with ⟨f, -, ha⟩ | ⟨s, hs, -, -, -, hl⟩
    · rw [ha]
      exact Or.inl hlog
    · rw [hl, ← hlog]
      exact Or.inr ⟨_, rfl, h₀.sends hs hfounded⟩
  · exact ⟨of_subset hnode hlog hflight, Or.inl hlog⟩

omit [DecidableEq ι] in
/-- At the start there is Common. -/
theorem namesFounded_start (nbrs : ι → List Sockaddr) (unset now : ι → ℤ) :
    NamesFounded (Net.start nbrs unset now) where
  known i s hs c hc := by
    cases hs
    rcases hc with hc | ⟨srvr, hsrvr, hc⟩
    · exact Or.inl (List.mem_singleton.mp hc)
    · obtain ⟨a, -, rfl⟩ := List.mem_map.mp hsrvr
      exact Or.inl (List.mem_singleton.mp hc)
  flight p hp := absurd hp List.not_mem_nil

end Network

/-- **Channels have founders.** In every run of a network, over wires that lose, delay, reorder and
double packets, with any servers faulting: a channel in the table of a running server or among the
subscriptions of one of its neighbours, in a packet in flight, or in a list that is sent to a
client, is Common or was asked for by a client before, at that server or at another. -/
theorem channels_have_founders {ι : Type} [DecidableEq ι] (addr : ι ↪ Sockaddr)
    (nbrs : ι → List Sockaddr) (unset now : ι → ℤ) (as : List (Action ι)) (n : Net ι)
    (h : Run (Net.step addr) (fun _ _ => True) (Net.start nbrs unset now) as n) :
    (∀ i s, n.node i = .running s → ∀ c, s.Knows c → Founded c n.log) ∧
      (∀ p ∈ n.flight, Founded p.msg.channel n.log) ∧
      Always (fun e earlier => ∀ d ∈ e.sent, d.Names fun c => Founded c (e :: earlier)) n.log := by
  obtain ⟨hn, hlog⟩ := h.always Net.log (I := NamesFounded)
    (P := fun e earlier => ∀ d ∈ e.sent, d.Names fun c => Founded c (e :: earlier))
    (fun _ _ _ hs _ hst => (hs.step hst).1) (fun _ _ _ hs _ hst => (hs.step hst).2)
    (namesFounded_start nbrs unset now) rfl
  exact ⟨hn.known, hn.flight, hlog⟩

namespace Three

/-- A channel is asked for at one end of the line, and listed in the middle. -/
def newcomer : List (Action (Fin 3)) :=
  gather ++ [request 0 (.join chnlX) 0, deliver 0 1 (.join chnlX), request 1 .list 0]

end Three

open Three in
theorem channels_have_founders_on_line :
    ∃ n, Run (Net.step addr) (fun _ _ => True)
        (Net.start line.nbrAddrs (fun _ => 0) fun _ => 0) newcomer n ∧
      (n.log.head?.map Event.sent = some [⟨client 1, .text (.list [common, chnlX])⟩]) ∧
      (∀ i s, n.node i = .running s → ∀ c, s.Knows c → Founded c n.log) ∧
      (∀ p ∈ n.flight, Founded p.msg.channel n.log) ∧
      Always (fun e earlier => ∀ d ∈ e.sent, d.Names fun c => Founded c (e :: earlier)) n.log := by
  have h : (execute (Net.step addr) (fun _ _ => True)
      (Net.start line.nbrAddrs (fun _ => 0) fun _ => 0) newcomer).any
        (fun n => n.log.head?.map Event.sent =
          some [⟨client 1, .text (.list [common, chnlX])⟩]) = true := by
    decide
  obtain ⟨n, hrun, hn⟩ := exists_run_of_execute h
  exact ⟨n, hrun, of_decide_eq_true hn,
    channels_have_founders addr line.nbrAddrs (fun _ => 0) (fun _ => 0) newcomer n hrun⟩

end DuckChat
