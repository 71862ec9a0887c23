import DuckChat.Speaker
import DuckChat.Lib.PastTime

/-!
# Where says come from

A server sends a say to its clients, and on to other servers, only after a client said it: at that
server or at some other, however the packets in between were delayed, doubled, reordered or lost.
The name that is shown is one under which the client was logged in when it spoke. Who is sent a say
is logged in and asked for the channel; the one exception is a login under a name that is in use by
a session, which removes another entry from the roster than its own.

All of this is read off the log: what was asked for at a server, and in which order.

## Main definitions

* `sessions` — the names under which an address is logged in
* `Spoken`, `Entitled`
* `Justified` — a datagram of an event that has its origin in the log
* `Traced` — the invariant

## Main results

* `text_of_react`, `packet_of_react` — what one server makes of a say
* `Traced.act` — the step lemma
* `says_have_speakers`
-/

set_option autoImplicit false

namespace DuckChat

/-- What a client asks for. -/
def Input.asked : Input → Option (Sockaddr × ClientRequest)
  | .datagram a (.client rq) _ _ => some (a, rq)
  | _ => none

/-- What an input makes of the names under which an address is logged in, the oldest first: a login
adds one, a logout takes the oldest. -/
def Input.session (a : Sockaddr) (i : Input) (us : List Username) : List Username :=
  match i.asked with
  | some (b, .login u) => if b = a then us ++ [u] else us
  | some (b, .logout) => if b = a then us.tail else us
  | _ => us

section Log

variable {ι : Type} [DecidableEq ι]

/-- The names under which an address is logged in at a server. -/
def sessions (i : ι) (a : Sockaddr) (log : List (Event ι)) : List Username :=
  log.foldr (fun e us => if e.server = i then e.input.session a us else us) []

/-- Somebody said it somewhere, under a name of theirs. -/
def Spoken (m : SayS2S) : List (Event ι) → Prop :=
  Once fun e earlier => ∃ a, e.input.asked = some (a, .say m.reqChannel m.reqText) ∧
    e.input.drawnId = some m.id ∧ m.reqUsername ∈ sessions e.server a earlier

/-- The name is in use at the server: an address is logged in under it. -/
def NameTaken (i : ι) (u : Username) (log : List (Event ι)) : Prop :=
  ∃ a, u ∈ sessions i a log

/-- The address asked for the channel at the server, or logged in there under a name that was in
use then. -/
def Entitled (i : ι) (b : Sockaddr) (c : Name) : List (Event ι) → Prop :=
  Once fun e earlier => e.server = i ∧ (e.input.asked = some (b, .join c) ∨
    ∃ u, e.input.asked = some (b, .login u) ∧ NameTaken i u earlier)

/-- A datagram of an event that has its origin in the log. A say was spoken; and who is sent one is
logged in, and is entitled to it. -/
def Justified (e : Event ι) (earlier : List (Event ι)) (d : Datagram) : Prop :=
  (∀ c u t, d.payload = .text (.say c u t) → (∃ id, Spoken ⟨id, u, c, t⟩ (e :: earlier)) ∧
    sessions e.server d.dest earlier ≠ [] ∧ Entitled e.server d.dest c earlier) ∧
  ∀ m, d.payload = .s2s (.say m) → Spoken m (e :: earlier)

end Log

/-! ### One server -/

/-- The names under which an address is in the table of users. -/
def ServerState.namesAt (s : ServerState) (a : Sockaddr) : List Username :=
  (s.heap.filter fun v => addrCmp v.address a).map User.username

section Server

variable {s s' : ServerState} {i : Input} {a b : Sockaddr} {c : Name} {u : Username} {t : SayText}
  {m : SayS2S} {heap : List User} {chnl : Channel} {es : List (Option User)} {drawn : Id} {now : ℤ}

theorem filter_eraseP_self {α : Type} (p : α → Bool) (l : List α) :
    (l.eraseP p).filter p = (l.filter p).tail := by
  induction l with
  | nil => rfl
  | cons x l ih =>
    by_cases hx : p x = true
    · rw [List.eraseP_cons_of_pos hx, List.filter_cons_of_pos hx, List.tail_cons]
    · rw [List.eraseP_cons_of_neg hx, List.filter_cons_of_neg hx, List.filter_cons_of_neg hx, ih]

theorem filter_eraseP_of_disjoint {α : Type} {p q : α → Bool} (h : ∀ x, p x = true → q x = false)
    (l : List α) : (l.eraseP p).filter q = l.filter q := by
  induction l with
  | nil => rfl
  | cons x l ih =>
    by_cases hx : p x = true
    · rw [List.eraseP_cons_of_pos hx, List.filter_cons_of_neg (by simp [h x hx])]
    · rw [List.eraseP_cons_of_neg hx, List.filter_cons, List.filter_cons, ih]

theorem session_of_isSession (h : i.isSession = false) (us : List Username) :
    i.session a us = us := by
  rcases i with ⟨b, (rq | m), drawn, now⟩ | now | now
  · cases rq <;> first | rfl | cases h
  · rfl
  · rfl
  · rfl

/-- **The table of users keeps the sessions.** -/
theorem namesAt_of_react (h : (react s i).result = .ok s') (a : Sockaddr) :
    s'.namesAt a = i.session a (s.namesAt a) := by
  have hstep := users_of_react h
  rw [ServerState.namesAt]
  generalize s'.heap = heap' at hstep
  generalize s'.heapNext = next' at hstep
  cases hstep with
  | kept hi => rw [session_of_isSession hi, ServerState.namesAt]
  | @loggedIn b u drawn now =>
    show _ = if b = a then s.namesAt a ++ [u] else s.namesAt a
    rw [List.filter_append, List.map_append, ← ServerState.namesAt]
    by_cases hb : b = a
    · rw [if_pos hb, List.filter_cons_of_pos (p := fun v : User => addrCmp v.address a)
        (addrCmp_iff.mpr hb)]
      rfl
    · rw [if_neg hb, List.filter_cons_of_neg (p := fun v : User => addrCmp v.address a)
        (mt addrCmp_iff.mp hb)]
      exact List.append_nil _
  | @loggedOut b drawn now usr hu =>
    show _ = if b = a then (s.namesAt a).tail else s.namesAt a
    by_cases hb : b = a
    · rw [if_pos hb, hb, filter_eraseP_self, List.map_tail, ← ServerState.namesAt]
    · rw [if_neg hb, filter_eraseP_of_disjoint, ← ServerState.namesAt]
      intro v hv
      rw [addrCmp_iff] at hv
      rw [← Bool.not_eq_true, addrCmp_iff, hv]
      exact hb

theorem username_mem_namesAt {v : User} (hv : v ∈ s.heap) (ha : v.address = a) :
    v.username ∈ s.namesAt a :=
  List.mem_map_of_mem (List.mem_filter.mpr ⟨hv, addrCmp_iff.mpr ha⟩)

/-! #### Says -/

/-- Every text of the loop of `REQ_SAY` goes to an entry, and has the name of a user at the
speaker's address. -/
theorem sends_sayLoop : (sayLoop heap chnl a c t es).Sends fun d =>
    ∃ v w, some v ∈ es ∧ v ∈ heap ∧ w ∈ heap ∧ w.address = a ∧
      d = ⟨v.address, .text (.say c w.username t)⟩ := by
  induction es with
  | nil => exact Emit.sends_pure _
  | cons e es ih =>
    refine (Emit.sends_lift _).bind fun found hfound => (Emit.sends_lift _).bind fun w hw =>
      (Emit.sends_lift _).bind fun v hv => (Emit.sends_emit ?_).bind fun _ _ d hd => ?_
    · obtain ⟨-, rfl⟩ := scan_eq_ok_iff.mp hfound
      obtain ⟨rfl, hmem⟩ := deref_eq_ok_iff.mp hv
      cases hf : chnl.entries.find? (isAt a) with
      | none =>
        rw [hf] at hw
        cases hw
      | some x =>
        rw [hf] at hw
        obtain ⟨rfl, hwmem⟩ := deref_eq_ok_iff.mp hw
        exact ⟨v, w, List.mem_cons_self, hmem, hwmem, isAt_some.mp (List.find?_some hf), rfl⟩
    · obtain ⟨v', w', hv', hrest⟩ := ih d hd
      exact ⟨v', w', List.mem_cons_of_mem _ hv', hrest⟩

theorem sends_deliverLoop {x : Text} : (deliverLoop heap x es).Sends fun d =>
    ∃ v, some v ∈ es ∧ v ∈ heap ∧ d = ⟨v.address, .text x⟩ := by
  induction es with
  | nil => exact Emit.sends_pure _
  | cons e es ih =>
    refine (Emit.sends_lift _).bind fun v hv => (Emit.sends_emit ?_).bind fun _ _ d hd => ?_
    · obtain ⟨rfl, hmem⟩ := deref_eq_ok_iff.mp hv
      exact ⟨v, List.mem_cons_self, hmem, rfl⟩
    · obtain ⟨v', hv', hrest⟩ := ih d hd
      exact ⟨v', List.mem_cons_of_mem _ hv', hrest⟩

/-- An entry of a channel in the table, of a user in the table of users. -/
def ServerState.Lists (s : ServerState) (c : Name) (v : User) : Prop :=
  v ∈ s.heap ∧ ∃ chnl ∈ s.channels.live, chnl.chnlName = c ∧ some v ∈ chnl.entries

theorem nonNull_eq_ok {α : Type} {p : Option α} {x : α} (h : nonNull p = .ok x) : p = some x := by
  cases p with
  | none => cases h
  | some y =>
    cases h
    rfl

/-- What `REQ_SAY` sends: errors; texts to entries of the channel, under a name of the speaker; and
packets, under a name of the speaker. -/
theorem sends_reqSay : (reqSay s a c t drawn).Sends fun d =>
    (∃ x, d.payload = .text (.error x)) ∨
    (∃ v w, s.Lists c v ∧ w ∈ s.heap ∧ w.address = a ∧
      d = ⟨v.address, .text (.say c w.username t)⟩) ∨
    ∃ w ∈ s.heap, w.address = a ∧ d.payload = .s2s (.say ⟨drawn, w.username, c, t⟩) := by
  rw [reqSay]
  split
  · refine Emit.Sends.bind (Emit.sends_emit ?_) fun _ _ => Emit.sends_lift _
    exact Or.inl ⟨_, rfl⟩
  · next chnl hf =>
    obtain ⟨hlive, hname⟩ := findChannel_some hf
    refine Emit.Sends.bind (fun d hd => ?_) fun _ _ => (Emit.sends_lift _).bind fun usr hu =>
      (Emit.sends_lift _).bind fun ids _ => (Emit.sends_emitAll fun d hd => ?_).bind
        fun _ _ => Emit.sends_pure _
    · obtain ⟨v, w, hv, hmem, hw, hwa, rfl⟩ := sends_sayLoop d hd
      exact Or.inr (Or.inl ⟨v, w, ⟨hmem, chnl, hlive, hname, hv⟩, hw, hwa, rfl⟩)
    · obtain ⟨srvr, -, rfl⟩ := List.mem_map.mp hd
      obtain ⟨hmem, ha⟩ := mem_heap_of_findUser (nonNull_eq_ok hu)
      exact Or.inr (Or.inr ⟨usr, hmem, ha, rfl⟩)

/-- What `REQ_SERV_SAY` sends: packets, and the text to entries of the channel. -/
theorem sends_reqServSay : (reqServSay s a m).Sends fun d =>
    (∃ x, d.payload = .s2s x) ∨ ∃ v, s.Lists m.reqChannel v ∧
      d = ⟨v.address, .text (.say m.reqChannel m.reqUsername m.reqText)⟩ := by
  refine (Emit.sends_lift _).bind fun dup _ => ?_
  split
  · refine Emit.Sends.bind (Emit.sends_emit ?_) fun _ _ => Emit.sends_pure _
    exact Or.inl ⟨_, rfl⟩
  · refine (Emit.sends_lift _).bind fun ids _ => (Emit.sends_lift _).bind fun active hactive => ?_
    dsimp only
    split
    · refine Emit.Sends.bind (Emit.sends_emit ?_) fun _ _ => Emit.sends_pure _
      exact Or.inl ⟨_, rfl⟩
    · obtain ⟨hlive, hname⟩ := findChannel_some (nonNull_eq_ok hactive)
      refine Emit.Sends.bind (fun d hd => ?_) fun _ _ =>
        (Emit.sends_emitAll fun d hd => ?_).bind fun _ _ => Emit.sends_pure _
      · obtain ⟨v, hv, hmem, rfl⟩ := sends_deliverLoop d hd
        exact Or.inr ⟨v, ⟨hmem, active, hlive, hname, hv⟩, rfl⟩
      · obtain ⟨srvr, -, rfl⟩ := List.mem_map.mp hd
        exact Or.inl ⟨_, rfl⟩

/-- Packets are not texts. -/
theorem sends_broadcast_not_isText (m : S2S) :
    (broadcast s m).Sends fun d => d.isText = false :=
  Emit.sends_emitAll fun d hd => by
    obtain ⟨b, -, rfl⟩ := List.mem_map.mp hd
    rfl

theorem sends_reqLeave_not_isText : (reqLeave s a c).Sends fun d => d.isText = false := by
  rw [reqLeave]
  split
  · refine Emit.Sends.bind (Emit.sends_emit ?_) fun _ _ => Emit.sends_pure _
    rfl
  · refine (Emit.sends_lift _).bind fun r _ => ?_
    dsimp only
    split
    · exact (sends_broadcast_not_isText _).bind fun _ _ => Emit.sends_pure _
    · exact Emit.sends_pure _

theorem sends_reqWho_not_isText : (reqWho s a c).Sends fun d => d.isText = false := by
  rw [reqWho]
  split
  · exact Emit.sends_lift _
  · split
    · refine Emit.Sends.bind (Emit.sends_emit ?_) fun _ _ => Emit.sends_pure _
      rfl
    · refine (Emit.sends_lift _).bind fun _ _ =>
        Emit.Sends.bind (Emit.sends_emit ?_) fun _ _ => Emit.sends_pure _
      rfl

theorem sends_reqServJoin_not_isText :
    (reqServJoin s a c now).Sends fun d => d.isText = false := by
  refine (Emit.sends_lift _).bind fun _ _ => (Emit.sends_lift _).bind fun _ _ => ?_
  dsimp only
  split
  · exact Emit.sends_pure _
  · exact (Emit.sends_lift _).bind fun _ _ => (sends_broadcast_not_isText _).bind
      fun _ _ => Emit.sends_pure _

/-- **The texts of other requests are not says.** -/
theorem isText_of_react {d : Datagram} (hd : d ∈ (react s i).out) (ht : d.isText = true) :
    (∃ a c t drawn now, i = .datagram a (.client (.say c t)) drawn now) ∨
      ∃ a m drawn now, i = .datagram a (.s2s (.say m)) drawn now := by
  have quiet : ∀ {r : Act ServerState}, (r.Sends fun d => d.isText = false) → d ∉ r.out := by
    intro r hr hmem
    rw [hr d hmem] at ht
    cases ht
  have silent : ∀ {r : Act ServerState}, r.out = [] → d ∉ r.out := by
    intro r hr
    rw [hr]
    exact List.not_mem_nil
  rcases i with ⟨a, (rq | (c | c | m)), drawn, now⟩ | now | now
  · cases rq with
    | login u => exact absurd hd (silent (reqLogin_out s a u))
    | logout => exact absurd hd (silent (reqLogout_out s a))
    | join c =>
      exact absurd hd (quiet ((sends_broadcast_not_isText _).bind fun _ _ =>
        (Emit.sends_lift _).bind fun _ _ => (Emit.sends_lift _).bind fun _ _ => Emit.sends_pure _))
    | leave c => exact absurd hd (quiet sends_reqLeave_not_isText)
    | say c t => exact Or.inl ⟨a, c, t, drawn, now, rfl⟩
    | list =>
      refine absurd hd (quiet (Emit.Sends.bind (Emit.sends_emit ?_) fun _ _ => Emit.sends_pure _))
      rfl
    | who c => exact absurd hd (quiet sends_reqWho_not_isText)
    | other k => exact absurd hd List.not_mem_nil
  · exact absurd hd (quiet sends_reqServJoin_not_isText)
  · exact absurd hd (silent (reqServLeave_cases s a c).1)
  · exact Or.inr ⟨a, m, drawn, now, rfl⟩
  · exact absurd hd (silent (timeoutScan_out s now))
  · refine absurd hd (quiet fun d hd => ?_)
    obtain ⟨c, -, b, -, rfl⟩ := mem_renewalPass_out hd
    rfl

/-- **A text of a say** goes to an entry of the channel. It is of a say of a client, under a name of
the client, or of a packet. -/
theorem text_of_react (hd : (⟨b, .text (.say c u t)⟩ : Datagram) ∈ (react s i).out) :
    (∃ v, v.address = b ∧ s.Lists c v) ∧
      ((∃ a w drawn now, i = .datagram a (.client (.say c t)) drawn now ∧ w ∈ s.heap ∧
          w.address = a ∧ w.username = u) ∨
        ∃ a id drawn now, i = .datagram a (.s2s (.say ⟨id, u, c, t⟩)) drawn now) := by
  rcases isText_of_react hd rfl with ⟨a, c', t', drawn, now, rfl⟩ | ⟨a, m, drawn, now, rfl⟩
  · rcases sends_reqSay _ hd with ⟨x, hx⟩ | ⟨v, w, hv, hw, hwa, heq⟩ | ⟨w, -, -, hx⟩
    · cases hx
    · cases heq
      exact ⟨⟨v, rfl, hv⟩, Or.inl ⟨a, w, drawn, now, rfl, hw, hwa, rfl⟩⟩
    · cases hx
  · rcases sends_reqServSay _ hd with ⟨x, hx⟩ | ⟨v, hv, heq⟩
    · cases hx
    · cases heq
      exact ⟨⟨v, rfl, hv⟩, Or.inr ⟨a, m.id, drawn, now, rfl⟩⟩

/-- **A packet of a say** is made of a say of a client, under a name of the client, or is passed
on. -/
theorem packet_of_react (hd : (⟨b, .s2s (.say m)⟩ : Datagram) ∈ (react s i).out) :
    (∃ a w now, i = .datagram a (.client (.say m.reqChannel m.reqText)) m.id now ∧ w ∈ s.heap ∧
        w.address = a ∧ w.username = m.reqUsername) ∨
      ∃ a drawn now, i = .datagram a (.s2s (.say m)) drawn now := by
  obtain ⟨id, u, c, t'⟩ := m
  rcases (mem_say_out hd).2 with ⟨a, t, now, rfl⟩ | ⟨a, drawn, now, rfl, -⟩
  · rcases sends_reqSay _ hd with ⟨x, hx⟩ | ⟨v, w, -, -, -, heq⟩ | ⟨w, hw, hwa, hx⟩
    · cases hx
    · cases heq
    · cases hx
      exact Or.inl ⟨a, w, now, rfl, hw, hwa, rfl⟩
  · exact Or.inr ⟨a, drawn, now, rfl⟩

/-! #### Rosters -/

theorem entries_start {addrs : List Sockaddr} {unset now : ℤ}
    (h : chnl ∈ (ServerState.start addrs unset now).channels.live) : chnl.entries = [] := by
  rw [List.mem_singleton.mp h]
  rfl

/-- **Where an entry comes from**: it was there before, or its user asked for the channel, or logged
in under the name of a user in the table that had an entry before. -/
theorem entry_of_react (h : (react s i).result = .ok s') {v : User}
    (hchnl : chnl ∈ s'.channels.live) (hv : some v ∈ chnl.entries) :
    (∃ old ∈ s.channels.live, old.chnlName = chnl.chnlName ∧ some v ∈ old.entries) ∨
      (v ∈ s.heap ∧ i.asked = some (v.address, .join chnl.chnlName)) ∨
        (i.asked = some (v.address, .login v.username) ∧
          ∃ old ∈ s.channels.live, old.chnlName = chnl.chnlName ∧
            ∃ w ∈ s.heap, some w ∈ old.entries ∧ w.username = v.username) := by
  have hstep := rosters_of_react h chnl hchnl
  generalize chnl.chnlName = c at hstep
  generalize chnl.entries = es at hstep hv
  cases hstep with
  | @kept _ old hold _ => exact Or.inl ⟨old, hold, rfl, hv⟩
  | created => exact absurd hv List.not_mem_nil
  | @joined a c drawn now =>
    rcases List.mem_append.mp hv with hv | hv
    · rw [ServerState.usersOf] at hv
      split at hv
      · next old hf =>
        obtain ⟨hold, hname⟩ := findChannel_some hf
        exact Or.inl ⟨old, hold, hname, hv⟩
      · exact absurd hv List.not_mem_nil
    · obtain ⟨hmem, ha⟩ := mem_heap_of_findUser (List.mem_singleton.mp hv).symm
      refine Or.inr (Or.inl ⟨hmem, ?_⟩)
      rw [ha]
      rfl
  | @left a c drawn now old usr hf hu =>
    obtain ⟨hold, hname⟩ := findChannel_some hf
    exact Or.inl ⟨old, hold, hname, without_sublist.mem hv⟩
  | @loggedOut a drawn now old usr hold hu => exact Or.inl ⟨old, hold, rfl, without_sublist.mem hv⟩
  | @loggedIn a u drawn now old hold hread =>
    have hlive : old ∈ s.channels.live := List.mem_of_mem_head? hold
    cases hfound : old.entries.find? (isNamed u) with
    | none =>
      have hfresh : ∀ e ∈ old.entries, isNamed u e = false := fun e he =>
        Bool.eq_false_iff.mpr (List.find?_eq_none.mp hfound e he)
      rw [without_concat hfresh rfl] at hv
      exact Or.inl ⟨old, hlive, rfl, hv⟩
    | some e =>
      rcases List.mem_append.mp (without_sublist.mem hv) with hv | hv
      · exact Or.inl ⟨old, hlive, rfl, hv⟩
      cases List.mem_singleton.mp hv
      have hhit :
          (old.entries ++ [some (⟨s.heapNext, u, a⟩ : User)]).find? (isNamed u) = some e := by
        rw [List.find?_append, hfound, Option.some_or]
      -- the comparison that hits has read the user
      obtain ⟨w, hw, rfl⟩ := hread.readable_of_find? hhit
      have hmem : some w ∈ old.entries := List.mem_of_find?_eq_some hfound
      rcases List.mem_cons.mp hw with rfl | hw
      · exact Or.inl ⟨old, hlive, rfl, hmem⟩
      · exact Or.inr (Or.inr ⟨rfl, old, hlive, rfl, w, hw, hmem,
          isNamed_some.mp (List.find?_some hfound)⟩)

end Server

/-! ### The network -/

section Network

variable {ι : Type} [DecidableEq ι] {addr : ι ↪ Sockaddr} {n n' : Net ι} {i : ι} {inp : Input}
  {s : ServerState} {a : Sockaddr} {u : Username} {e : Event ι} {log : List (Event ι)}

/-- What the tables, the wires and the log have to do with each other. -/
structure Traced (n : Net ι) : Prop where
  /-- The table of users keeps the sessions. -/
  users : ∀ i s, n.node i = .running s → ∀ a, s.namesAt a = sessions i a n.log
  /-- Who is in a channel is entitled to it. -/
  entries : ∀ i s, n.node i = .running s → ∀ chnl ∈ s.channels.live, ∀ v, some v ∈ chnl.entries →
    Entitled i v.address chnl.chnlName n.log
  /-- Says in flight were spoken. -/
  flight : ∀ p ∈ n.flight, ∀ m, p.msg = .say m → Spoken m n.log

theorem sessions_cons :
    sessions i a (e :: log) =
      if e.server = i then e.input.session a (sessions i a log) else sessions i a log := rfl

/-- The name of a user in the table. -/
theorem Traced.mem_sessions (h : Traced n) (hs : n.node i = .running s) {v : User}
    (hv : v ∈ s.heap) : v.username ∈ sessions i v.address n.log := by
  rw [← h.users i s hs]
  exact username_mem_namesAt hv rfl

/-- **What an event sends is justified**, if a say that it brings was spoken. -/
theorem Traced.justified (h : Traced n) (hs : n.node i = .running s)
    (hp : ∀ src m drawn now, inp = .datagram src (.s2s (.say m)) drawn now → Spoken m n.log) :
    ∀ d ∈ (react s inp).out, Justified ⟨i, inp, (react s inp).out⟩ n.log d := by
  rintro ⟨b, x⟩ hd
  refine ⟨fun c u t hx => ?_, fun m hx => ?_⟩
  · obtain rfl : x = .text (.say c u t) := hx
    obtain ⟨⟨v, rfl, hv, chnl, hchnl, rfl, hentry⟩, hwho⟩ := text_of_react hd
    refine ⟨?_, List.ne_nil_of_mem (h.mem_sessions hs hv), h.entries i s hs chnl hchnl v hentry⟩
    rcases hwho with ⟨a, w, drawn, now, rfl, hw, rfl, rfl⟩ | ⟨a, id, drawn, now, rfl⟩
    · exact ⟨drawn, Or.inl ⟨w.address, rfl, rfl, h.mem_sessions hs hw⟩⟩
    · exact ⟨id, (hp _ _ _ _ rfl).cons _⟩
  · obtain rfl : x = .s2s (.say m) := hx
    rcases packet_of_react hd with ⟨a, w, now, rfl, hw, rfl, hname⟩ | ⟨a, drawn, now, rfl⟩
    · refine Or.inl ⟨w.address, rfl, rfl, ?_⟩
      rw [← hname]
      exact h.mem_sessions hs hw
    · exact (hp _ _ _ _ rfl).cons _

/-- **The step lemma.** -/
theorem Traced.act (h : Traced n)
    (hp : ∀ src m drawn now, inp = .datagram src (.s2s (.say m)) drawn now → Spoken m n.log) :
    Traced (n.act addr i inp) := by
  rcases n.act_cases addr i inp with ⟨f, -, ha⟩ | ⟨s, hs, -, -, hf, hl⟩
  · rw [ha]
    exact h
  have hold : ∀ {j t}, j ≠ i → (n.act addr i inp).node j = .running t → n.node j = .running t :=
    fun hj ht => (Net.node_act_of_ne hj).symm.trans ht
  have hnew : ∀ {t}, (n.act addr i inp).node i = .running t → (react s inp).result = .ok t := by
    intro t ht
    obtain ⟨s', hs', hr⟩ := Net.exists_of_act_running ht
    rw [hs] at hs'
    cases hs'
    exact hr
  refine ⟨fun j t ht a => ?_, fun j t ht chnl hchnl v hv => ?_, fun p hpf m hm => ?_⟩
  · rw [hl, sessions_cons]
    by_cases hj : i = j
    · subst hj
      rw [if_pos rfl, namesAt_of_react (hnew ht), h.users i s hs]
    · rw [if_neg hj]
      exact h.users j t (hold (Ne.symm hj) ht) a
  · rw [hl]
    by_cases hj : i = j
    · subst hj
      rcases entry_of_react (hnew ht) hchnl hv with
        ⟨old, hmem, hname, hin⟩ | ⟨-, hask⟩ | ⟨hask, -, -, -, w, hw, -, hname⟩
      · have hent := h.entries i s hs old hmem v hin
        rw [hname] at hent
        exact hent.cons _
      · exact Or.inl ⟨rfl, Or.inl hask⟩
      · have htaken : NameTaken i v.username n.log := by
          rw [← hname]
          exact ⟨w.address, h.mem_sessions hs hw⟩
        exact Or.inl ⟨rfl, Or.inr ⟨v.username, hask, htaken⟩⟩
    · exact (h.entries j t (hold (Ne.symm hj) ht) chnl hchnl v hv).cons _
  · rw [hl]
    rw [hf] at hpf
    rcases List.mem_append.mp hpf with hpf | hpf
    · exact (h.flight p hpf m hm).cons _
    · obtain ⟨-, hd⟩ := mem_packets.mp hpf
      rw [hm] at hd
      exact (h.justified hs hp _ hd).2 m rfl

/-- Fewer packets, and the same servers and log. -/
theorem Traced.of_subset (h : Traced n) (hnode : n'.node = n.node) (hlog : n'.log = n.log)
    (hflight : ∀ p ∈ n'.flight, p ∈ n.flight) : Traced n' := by
  refine ⟨?_, ?_, fun p hp m hm => ?_⟩
  · rw [hnode, hlog]
    exact h.users
  · rw [hnode, hlog]
    exact h.entries
  · rw [hlog]
    exact h.flight p (hflight p hp) m hm

/-- One action: the invariant is kept, and a new event is justified. -/
theorem Traced.step (h : Traced n) {x : Action ι} (hst : Net.step addr n x = some n') :
    Traced n' ∧
      (n'.log = n.log ∨ ∃ e, n'.log = e :: n.log ∧ ∀ d ∈ e.sent, Justified e n.log d) := by
  rcases Net.step_cases hst with
    ⟨n₀, i, inp, hnode, hlog, hflight, hp, rfl⟩ | ⟨hnode, hlog, hflight⟩
  · have h₀ := h.of_subset hnode hlog hflight
    have hspoken : ∀ src m drawn now, inp = .datagram src (.s2s (.say m)) drawn now →
        Spoken m n₀.log := by
      intro src m drawn now hinp
      rw [hlog]
      exact h.flight _ (hp src (.say m) drawn now hinp) m rfl
    refine ⟨h₀.act hspoken, ?_⟩
    rcases n₀.act_cases addr i inp with ⟨f, -, ha⟩ | ⟨s, hs, -, -, -, hl⟩
    · rw [ha]
      exact Or.inl hlog
    · rw [hl, ← hlog]
      exact Or.inr ⟨_, rfl, h₀.justified hs hspoken⟩
  · exact ⟨h.of_subset hnode hlog hflight, Or.inl hlog⟩

theorem traced_start (nbrs : ι → List Sockaddr) (unset now : ι → ℤ) :
    Traced (Net.start nbrs unset now) where
  users i s hs a := by
    cases hs
    rfl
  entries i s hs chnl hchnl v hv := by
    cases hs
    rw [entries_start hchnl] at hv
    exact absurd hv List.not_mem_nil
  flight p hp := absurd hp List.not_mem_nil

end Network

/-- **Says have speakers.** In every run of a network, over wires that lose, delay, reorder and
double packets, with any servers faulting: every say that is sent, to a client or a server, was said
before by a client at some server, to that channel and with that text, under a name under which the
client was logged in there when it spoke, and a packet has the number that was drawn then. The
client that a say is sent to is logged in at that server and has asked there for the channel, or it
has logged in under a name that was in use by a session then. -/
theorem says_have_speakers {ι : Type} [DecidableEq ι] (addr : ι ↪ Sockaddr)
    (nbrs : ι → List Sockaddr) (unset now : ι → ℤ) (as : List (Action ι)) (n : Net ι)
    (h : Run (Net.step addr) (fun _ _ => True) (Net.start nbrs unset now) as n) :
    Always (fun e earlier => ∀ d ∈ e.sent, Justified e earlier d) n.log :=
  (h.always Net.log (I := Traced) (fun _ _ _ hs _ hst => (hs.step hst).1)
    (fun _ _ _ hs _ hst => (hs.step hst).2) (traced_start nbrs unset now) rfl).2

open Three in
theorem says_have_speakers_on_line :
    ∃ n, Run (Net.step addr) (fun _ _ => True)
        (Net.start line.nbrAddrs (fun _ => 0) fun _ => 0) sayAcross n ∧
      (n.log.head?.map Event.sent =
        some [⟨client 2, .text (.say common (username 0) hello)⟩]) ∧
      Always (fun e earlier => ∀ d ∈ e.sent, Justified e earlier d) n.log := by
  have h : (execute (Net.step addr) (fun _ _ => True)
      (Net.start line.nbrAddrs (fun _ => 0) fun _ => 0) sayAcross).any
        (fun n => n.log.head?.map Event.sent =
          some [⟨client 2, .text (.say common (username 0) hello)⟩]) = true := by
    decide
  obtain ⟨n, hrun, hn⟩ := exists_run_of_execute h
  exact ⟨n, hrun, of_decide_eq_true hn,
    says_have_speakers addr line.nbrAddrs (fun _ => 0) (fun _ => 0) sayAcross n hrun⟩

end DuckChat
