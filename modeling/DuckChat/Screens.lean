import DuckChat.Requests
import DuckChat.Serving
import DuckChat.Terminal

/-!
# From the keyboards to the screens

A server process and the clients that talk to it, down to the bytes: lines are typed and read into
`buff` over what stands there, datagrams are sent, and any datagram that has been sent may arrive at
the server, at any time, any number of times or never. The buffer of the server is never cleared,
and what `malloc` and the stacks hold is whatever it is. Packets of other servers arrive in between.

As long as what arrives is courteous where it arrives, everybody is sent what the chat service tells
them, in the form that their terminal shows it in. A `/who` whose name fills its field is never
courteous, since it stops the server.

## Main definitions

* `Site`, `SiteAction`, `Site.step`
* `SiteAction.command` — what an action is for the service

## Main results

* `siteRefinement` — a site refines the service
* `terminals_show_service`
-/

set_option autoImplicit false

namespace DuckChat

/-! ### A server and its clients -/

/-- A server goes on, unless it stopped. -/
def Host.goOn (x : ReceiveLine × Wire ServerState) : Option (Host × List (Sockaddr × List UInt8)) :=
  match x.2.result with
  | .error _ => none
  | .ok s => some (⟨s, x.1⟩, x.2.out)

/-- The clients that have started, and what each of them has sent: every datagram with the message
that it was made for, which is for the reader only. -/
structure Site (κ : Type) where
  host : Host
  client : κ → Option Console
  asked : κ → List (ClientMessage × List UInt8)

/-- What can happen. A client starts with what the stack holds, and `malloc`. -/
inductive SiteAction (κ : Type) where
  | begin (k : κ) (usrname : Username) (reqLg reqJn : Stack) (unset : LineBuffer)
  /-- A line is typed. -/
  | line (k : κ) (l : Typed)
  | receive (k : κ) (m : ClientMessage) (bytes : List UInt8) (mem : Heap) (drawn : Id) (now : ℤ)
  /-- A packet of another server arrives. -/
  | packet (src : Sockaddr) (m : S2S) (mem : Heap) (now : ℤ)
  | timeouts (mem : Heap) (now : ℤ)
  | renewal (mem : Heap) (now : ℤ)

/-- What was sent to an address. -/
def bytesFor (b : Sockaddr) (out : List (Sockaddr × List UInt8)) : List (List UInt8) :=
  out.filterMap fun d => if d.1 = b then some d.2 else none

namespace Site

variable {κ : Type} [DecidableEq κ] (addr : κ ↪ Sockaddr) (t : Site κ)

/-- A site at start. -/
def start (nbrs : List Sockaddr) (unset now : ℤ) (receiveLine : ReceiveLine) : Site κ where
  host := ⟨ServerState.start nbrs unset now, receiveLine⟩
  client _ := none
  asked _ := []

/-- A client goes on, and has sent datagrams. -/
def ask (k : κ) (s : Console) (sent : List (ClientMessage × List UInt8)) : Site κ :=
  { t with
    client := Function.update t.client k (some s)
    asked := Function.update t.asked k (t.asked k ++ sent) }

/-- The server goes on, and has sent datagrams to the clients. -/
def answer (r : Host × List (Sockaddr × List UInt8)) : Site κ × (κ → List (List UInt8)) :=
  ({ t with host := r.1 }, fun k => bytesFor (addr k) r.2)

/-- One action, and what is sent to the clients for it. -/
def step : SiteAction κ → Option (Site κ × (κ → List (List UInt8)))
  | .begin k usrname reqLg reqJn unset =>
      match t.client k with
      | some _ => none
      | none => some (t.ask k (Console.start unset) (((firstRequests usrname).map .request).zip
          (firstDatagrams reqLg reqJn usrname)), fun _ => [])
  | .line k l =>
      match t.client k with
      | none => none
      | some s =>
          match (s.turn l).result with
          | .error _ => none
          | .ok s' => some (t.ask k s' ((s.turn l).out.zip (s.client.sends (s.buff.line l))),
              fun _ => [])
  | .receive k m bytes mem drawn now =>
      if (m, bytes) ∈ t.asked k then
        (Host.goOn (t.host.take mem (addr k) bytes drawn now)).map (t.answer addr)
      else none
  | .packet src m mem now => (Host.goOn (t.host.take mem src m.bytes 0 now)).map (t.answer addr)
  | .timeouts mem now =>
      (Host.goOn (t.host.round mem (timeoutScan t.host.server now))).map (t.answer addr)
  | .renewal mem now =>
      (Host.goOn (t.host.round mem (renewalPass t.host.server now))).map (t.answer addr)

/-- A site as a system that answers. -/
def answers : Steps (Site κ) (SiteAction κ) (κ → List (List UInt8)) :=
  fun t a t' w => t.step addr a = some (t', w)

omit [DecidableEq κ] in
/-- What arrives is courteous, and what comes from elsewhere comes from no client. -/
def Courteous : SiteAction κ → Prop
  | .receive k (.request rq) _ _ drawn now =>
      Polite t.host.server (.datagram (addr k) (.client rq) drawn now)
  | .receive _ (.fullWho _) _ _ _ _ => False
  | .packet src _ _ _ => ∀ k, addr k ≠ src
  | _ => True

end Site

section Rules

variable {κ : Type} (addr : κ ↪ Sockaddr)

/-- What an action is for the service. What a client does is nothing to it until it arrives. -/
def SiteAction.command : SiteAction κ → ChatCommand
  | .receive k (.request rq) _ _ drawn now =>
      (Input.datagram (addr k) (.client rq) drawn now).command
  | .packet src m _ now => (Input.datagram src (.s2s m) 0 now).command
  | _ => .idle

/-- Everybody is sent a datagram for each notice, and no other; their terminal shows it. -/
def OnScreens (w : κ → List (List UInt8)) (v : Sockaddr → Option ChatNotice) : Prop :=
  ∀ k, List.Forall₂ (fun bytes n => Displays n (printed bytes)) (w k) (v (addr k)).toList

variable {addr} {t t' : Site κ} {w : κ → List (List UInt8)} {mem : Heap} {s s' : ServerState}
  {out : List Datagram} {b src : Sockaddr} {clients servers : List Sockaddr} {i : Input}
  {rq : Request} {bytes : List UInt8} {drawn : Id} {now : ℤ} {h h' : Host} {buf : ReceiveLine}

/-! ### One input at the server -/

/-- What a client is sent are texts. -/
theorem bytesFor_encode (hout : ∀ d ∈ out, Datagram.Sendable clients servers d) (hb : b ∉ servers) :
    bytesFor b (out.map (Datagram.encode mem)) = (textsFor b out).map (Text.encode mem) := by
  induction out with
  | nil => rfl
  | cons d out ih =>
    obtain ⟨hd, htail⟩ := List.forall_mem_cons.mp hout
    have ih := ih htail
    rw [bytesFor, List.filterMap_map] at ih
    rw [bytesFor, List.map_cons, List.filterMap_cons, List.filterMap_map, ih, textsFor, textsFor,
      List.filterMap_cons]
    obtain ⟨dest, x | m⟩ := d
    · by_cases hdest : dest = b
      · simp [Datagram.encode, hdest]
      · simp [Datagram.encode, hdest]
    · have hdest : dest ≠ b := fun heq => hb (heq ▸ hd)
      simp [Datagram.encode, hdest]

theorem fits_of_mem_textsFor (hout : ∀ d ∈ out, Datagram.Sendable clients servers d) {x : Text}
    (hx : x ∈ textsFor b out) : x.Fits := by
  obtain ⟨d, hd, hdx⟩ := List.mem_filterMap.mp hx
  have hsend := hout d hd
  rw [Datagram.Sendable] at hsend
  split at hdx
  · next y hy =>
    rw [hy] at hsend
    split at hdx
    · cases hdx
      exact hsend.2
    · cases hdx
  · cases hdx

/-- **Texts on the wire** are shown as what they tell. -/
theorem displays_of_shows {v : Sockaddr → Option ChatNotice} (hshows : Shows out v)
    (hout : ∀ d ∈ out, Datagram.Sendable clients servers d) (hb : b ∉ servers) (mem : Heap) :
    List.Forall₂ (fun bytes n => Displays n (printed bytes))
      (bytesFor b (out.map (Datagram.encode mem))) (v b).toList := by
  rw [bytesFor_encode hout hb, List.forall₂_map_left_iff]
  have hfits : ∀ x ∈ textsFor b out, x.Fits := fun x hx => fits_of_mem_textsFor hout hx
  have htells := hshows b
  generalize textsFor b out = xs at hfits htells
  generalize (v b).toList = ns at htells
  revert hfits
  induction htells with
  | nil => exact fun _ => .nil
  | cons hx _ ih =>
    intro hfits
    obtain ⟨hfx, hfits⟩ := List.forall_mem_cons.mp hfits
    exact .cons (displays_encode hx hfx mem) (ih hfits)

/-- A server goes on as the model does. -/
theorem goOn_encodeAct {x : Act ServerState} {r : Host × List (Sockaddr × List UInt8)} :
    Host.goOn (buf, encodeAct mem x) = some r ↔
      ∃ s, x.result = .ok s ∧ r = (⟨s, buf⟩, x.out.map (Datagram.encode mem)) := by
  obtain ⟨o, f | s⟩ := x
  · simp [Host.goOn, encodeAct, Except.mapError]
  · simp [Host.goOn, encodeAct, Except.mapError, eq_comm]

/-- **One input at the server**, as bytes. -/
theorem Site.of_goOn (hp : Proper t.host.server) (hc : Polite t.host.server i)
    (hpeers : ∀ k, addr k ∉ t.host.server.peers i)
    (hstep : (Host.goOn (buf, encodeAct mem (react t.host.server i))).map (t.answer addr) =
      some (t', w)) :
    t'.asked = t.asked ∧ t'.host.server.neighbours = t.host.server.neighbours ∧
      Proper t'.host.server ∧
      ∃ v, Service.Step t.host.server.service i.command t'.host.server.service v ∧
        OnScreens addr w v := by
  obtain ⟨r, hr, heq⟩ := Option.map_eq_some_iff.mp hstep
  obtain ⟨s', hst, rfl⟩ := goOn_encodeAct.mp hr
  cases heq
  obtain ⟨hp', v, hv, hshows⟩ := hp.step hc hst
  exact ⟨rfl, neighbours_of_react hst, hp', v, hv, fun k =>
    displays_of_shows hshows (sendable_react _ i) (hpeers k) mem⟩

/-! ### Actions -/

variable [DecidableEq κ]

/-- What is in order at a site: the tables, the addresses, and every datagram that was sent. -/
structure Site.InOrder (addr : κ ↪ Sockaddr) (t : Site κ) : Prop where
  proper : Proper t.host.server
  addresses : ∀ k, addr k ∉ t.host.server.neighbours
  sent : ∀ k, ∀ p ∈ t.asked k, p.1.SentAs p.2

omit [DecidableEq κ] in
/-- Datagrams with the messages that they were made for. -/
theorem sentAs_of_mem_zip {ms : List ClientMessage} {ds : List (List UInt8)}
    (h : List.Forall₂ ClientMessage.SentAs ms ds) : ∀ p ∈ ms.zip ds, p.1.SentAs p.2 :=
  fun _ hp => (List.forall₂_iff_zip.mp h).2 hp

omit [DecidableEq κ] in
theorem forall₂_sentAs_first (reqLg reqJn : Stack) (usrname : Username) :
    List.Forall₂ ClientMessage.SentAs ((firstRequests usrname).map .request)
      (firstDatagrams reqLg reqJn usrname) :=
  List.forall₂_map_left_iff.mpr (firstDatagrams_convey reqLg reqJn usrname)

omit [DecidableEq κ] in
theorem Site.inOrder_start {nbrs : List Sockaddr} (hnbrs : ∀ k, addr k ∉ nbrs) {unset : ℤ} :
    (Site.start nbrs unset now buf : Site κ).InOrder addr := by
  refine ⟨proper_start nbrs unset now, fun k => ?_, fun k p hp => absurd hp List.not_mem_nil⟩
  show addr k ∉ (ServerState.start nbrs unset now).neighbours
  rw [neighbours_start]
  exact hnbrs k

/-- What a client sends does what it was made for. -/
theorem Site.InOrder.ask (h : t.InOrder addr) {k : κ} {s : Console}
    {sent : List (ClientMessage × List UInt8)} (hs : ∀ p ∈ sent, p.1.SentAs p.2) :
    (t.ask k s sent).InOrder addr := by
  refine ⟨h.proper, h.addresses, fun j p hp => ?_⟩
  have hp : p ∈ Function.update t.asked k (t.asked k ++ sent) j := hp
  rw [Function.update_apply] at hp
  split at hp
  · rcases List.mem_append.mp hp with hp | hp
    · exact h.sent k p hp
    · exact hs p hp
  · exact h.sent j p hp

omit [DecidableEq κ] in
theorem onScreens_nil : OnScreens addr (fun _ => []) fun _ => none := fun _ => .nil

/-- **One action.** -/
theorem Site.InOrder.step {a : SiteAction κ} (h : t.InOrder addr) (hc : t.Courteous addr a)
    (hstep : t.step addr a = some (t', w)) :
    t'.InOrder addr ∧ ∃ v, Service.Step t.host.server.service (a.command addr)
      t'.host.server.service v ∧ OnScreens addr w v := by
  have quiet : ∀ {t₁ : Site κ}, t₁.InOrder addr → t₁.host = t.host → t₁ = t' →
      (fun _ => []) = w → (a.command addr) = .idle → t'.InOrder addr ∧
        ∃ v, Service.Step t.host.server.service (a.command addr) t'.host.server.service v ∧
          OnScreens addr w v := by
    rintro t₁ h₁ hhost rfl rfl hidle
    refine ⟨h₁, fun _ => none, ⟨?_, Or.inl ?_⟩, onScreens_nil⟩
    · rw [hidle, hhost]
      rfl
    · rw [hidle]
      rfl
  have serves : ∀ {i : Input} {buf : ReceiveLine} {mem : Heap}, Polite t.host.server i →
      (∀ k, addr k ∉ t.host.server.peers i) →
      (Host.goOn (buf, encodeAct mem (react t.host.server i))).map (t.answer addr) =
        some (t', w) → i.command = a.command addr → t'.InOrder addr ∧
        ∃ v, Service.Step t.host.server.service (a.command addr) t'.host.server.service v ∧
          OnScreens addr w v := by
    intro i buf mem hpol hpeers hst hcmd
    obtain ⟨hasked, hnb, hp, v, hv, hscreen⟩ := Site.of_goOn h.proper hpol hpeers hst
    refine ⟨⟨hp, by rw [hnb]; exact h.addresses, by rw [hasked]; exact h.sent⟩, v, ?_, hscreen⟩
    rwa [← hcmd]
  cases a with
  | begin k usrname reqLg reqJn unset =>
    rw [Site.step] at hstep
    split at hstep
    · cases hstep
    · obtain ⟨ht, hw⟩ := Prod.mk.inj (Option.some.inj hstep)
      exact quiet (h.ask (sentAs_of_mem_zip (forall₂_sentAs_first reqLg reqJn usrname))) rfl ht
        hw rfl
  | line k l =>
    rw [Site.step] at hstep
    split at hstep
    · cases hstep
    · split at hstep
      · cases hstep
      · next hturn =>
        obtain ⟨ht, hw⟩ := Prod.mk.inj (Option.some.inj hstep)
        have hsent := turn_conveys (Console.turn_client hturn)
        rw [← Console.turn_out] at hsent
        exact quiet (h.ask (sentAs_of_mem_zip hsent)) rfl ht hw rfl
  | receive k m bytes mem drawn now =>
    rw [Site.step] at hstep
    split at hstep
    · next hmem =>
      cases m with
      | request rq =>
        rw [take_of_conveys (h.sent k _ hmem)] at hstep
        exact serves hc h.addresses hstep rfl
      | fullWho f => exact hc.elim
    · cases hstep
  | packet src m mem now =>
    rw [Site.step, take_of_conveys (conveys_s2s m)] at hstep
    refine serves (i := .datagram src (.s2s m) 0 now) ?_ (fun k hk => ?_) hstep rfl
    · cases m <;> exact trivial
    · rcases List.mem_cons.mp hk with hk | hk
      · exact hc k hk
      · exact h.addresses k hk
  | timeouts mem now => exact serves (i := .timeouts now) trivial h.addresses hstep rfl
  | renewal mem now => exact serves (i := .renewal now) trivial h.addresses hstep rfl

/-- **A site refines the chat service**, on actions that are courteous. -/
def siteRefinement (addr : κ ↪ Sockaddr) :
    Refines (Site.answers addr) (Site.Courteous addr) chatSteps Service.Courteous where
  rel t x := t.InOrder addr ∧ x = t.host.server.service
  means a k := k = a.command addr
  shows := OnScreens addr
  step := by
    rintro t t' a w _ ⟨h, rfl⟩ hc hst
    obtain ⟨h', v, hv, hscreen⟩ := h.step hc hst
    refine ⟨_, _, v, rfl, ?_, hv, ⟨h', rfl⟩, hscreen⟩
    cases a with
    | receive k m bytes mem drawn now =>
      cases m with
      | request rq => exact hc
      | fullWho f => exact trivial
    | packet src m mem now => cases m <;> exact trivial
    | begin => exact trivial
    | line => exact trivial
    | timeouts => exact trivial
    | renewal => exact trivial

end Rules

/-- A line that is typed, from the turn it makes. -/
theorem answers_line {κ : Type} [DecidableEq κ] {addr : κ ↪ Sockaddr} {t : Site κ} {k : κ}
    {s s' : Console} {l : Typed} {ms : List ClientMessage} (hk : t.client k = some s)
    (hturn : s.turn l = ⟨ms, .ok s'⟩) : Site.answers addr t (.line k l)
      (t.ask k s' (ms.zip (s.client.sends (s.buff.line l)))) fun _ => [] := by
  rw [Site.answers, Site.step, hk]
  simp only [hturn]

/-- What has been sent can arrive, in any order in which a server takes the requests. -/
theorem exists_trace_receives {κ : Type} [DecidableEq κ] {addr : κ ↪ Sockaddr} {t : Site κ}
    (h : t.InOrder addr) (mem : Heap) {qs : List (κ × ClientRequest × List UInt8)}
    (hq : ∀ q ∈ qs, (.request q.2.1, q.2.2) ∈ t.asked q.1) {outs : List (List Datagram)}
    {s : ServerState}
    (hrun : Trace ServerState.answers Polite t.host.server
      (qs.map fun q => .datagram (addr q.1) (.client q.2.1) 0 0) outs s) :
    ∃ ws t', Trace (Site.answers addr) (Site.Courteous addr) t
      (qs.map fun q => .receive q.1 (.request q.2.1) q.2.2 mem 0 0) ws t' := by
  induction qs generalizing t outs with
  | nil => exact ⟨[], t, .nil t⟩
  | cons q qs ih =>
    obtain ⟨hmem, hq⟩ := List.forall_mem_cons.mp hq
    cases hrun with
    | cons hpol hst hrest =>
      have hstep : ∃ w, t.step addr (.receive q.1 (.request q.2.1) q.2.2 mem 0 0) =
          some ({ t with host := ⟨_, socketRecv t.host.receiveLine (receive q.2.2)⟩ }, w) :=
        ⟨_, by
          rw [Site.step, if_pos hmem, take_of_conveys (h.sent q.1 _ hmem),
            goOn_encodeAct.mpr ⟨_, hst.1, rfl⟩]
          rfl⟩
      obtain ⟨w, hw⟩ := hstep
      have hpol' : t.Courteous addr (.receive q.1 (.request q.2.1) q.2.2 mem 0 0) := hpol
      obtain ⟨ws, t', htr⟩ := ih (h.step hpol' hw).1 hq hrest
      exact ⟨w :: ws, t', .cons hpol' hw htr⟩

/-- **What is typed, and what is shown.** In every run of a site from its start in which what
arrives is courteous, and no client has the address of a neighbour: the run is a course of the chat
service over the requests that arrive, which the clients have sent for the lines that were typed, as
those were read into the buffer, and over the packets of other servers; and at every action each
client is sent exactly what the service tells it, in datagrams that its terminal shows it by. -/
theorem terminals_show_service {κ : Type} [DecidableEq κ] (addr : κ ↪ Sockaddr)
    (nbrs : List Sockaddr) (hnbrs : ∀ k, addr k ∉ nbrs) (unset now : ℤ) (receiveLine : ReceiveLine)
    (as : List (SiteAction κ)) (ws : List (κ → List (List UInt8))) (t : Site κ)
    (h : Trace (Site.answers addr) (Site.Courteous addr) (Site.start nbrs unset now receiveLine)
      as ws t) :
    ∃ vs, Trace chatSteps Service.Courteous (Service.start common)
        (as.map (SiteAction.command addr)) vs t.host.server.service ∧
      List.Forall₂ (OnScreens addr) ws vs := by
  obtain ⟨vs, x, htr, ⟨-, rfl⟩, hvs⟩ := (siteRefinement addr).trace_map (fun _ _ hk => hk) h
    ⟨Site.inOrder_start hnbrs, (service_start nbrs unset now).symm⟩
  exact ⟨vs, htr, hvs⟩

namespace Three

def clientAddr : Fin 3 ↪ Sockaddr := ⟨client, by decide⟩

/-- Two clients start, and a line is typed at one of them. -/
def opening : List (SiteAction (Fin 3)) :=
  [.begin 0 (username 0) litter litter .cleared, .begin 1 (username 1) litter litter .cleared,
    .line 0 helloTyped]

/-- The datagrams in the order in which they arrive. -/
def arrivals : List (Fin 3 × ClientRequest × List UInt8) :=
  [(1, .login (username 1), requestLoginBytes litter (username 1)), (1, .join common,
    firstJoinBytes litter), (0, .login (username 0), requestLoginBytes litter (username 0)),
    (0, .join common, firstJoinBytes litter), (0, .say common hello,
    requestSayBytes common hello.bytes)]

/-- What happens in all. -/
def talk : List (SiteAction (Fin 3)) :=
  opening ++ arrivals.map fun q => .receive q.1 (.request q.2.1) q.2.2 (fun _ => 255) 0 0

end Three

open Three in
theorem terminals_show_service_on_talk :
    ∃ ws t, Trace (Site.answers clientAddr) (Site.Courteous clientAddr)
        (Site.start [addr 0] 0 0 (.fill 170)) talk ws t ∧
      ∃ vs, Trace chatSteps Service.Courteous (Service.start common)
          (talk.map (SiteAction.command clientAddr)) vs t.host.server.service ∧
        List.Forall₂ (OnScreens clientAddr) ws vs := by
  have h : (execute ServerState.next Polite (ServerState.start [addr 0] 0 0)
      (arrivals.map fun q => .datagram (clientAddr q.1) (.client q.2.1) 0 0)).any
        (fun _ => true) = true := by decide
  obtain ⟨outs, s, hrun, -⟩ := exists_answers_of_execute h
  have hnbrs : ∀ k, clientAddr k ∉ [addr 0] := by decide
  obtain ⟨t, hopen, hhost, hasked⟩ : ∃ t, Trace (Site.answers clientAddr)
      (Site.Courteous clientAddr) (Site.start [addr 0] 0 0 (.fill 170)) opening
      [fun _ => [], fun _ => [], fun _ => []] t ∧
      t.host.server = ServerState.start [addr 0] 0 0 ∧
      ∀ q ∈ arrivals, (.request q.2.1, q.2.2) ∈ t.asked q.1 := by
    refine ⟨_, .cons trivial rfl (.cons trivial rfl (.cons trivial (answers_line rfl
      turn_helloTyped) (.nil _))), rfl, ?_⟩
    refine List.forall_mem_cons.mpr ⟨.head _, List.forall_mem_cons.mpr ⟨.tail _ (.head _), ?_⟩⟩
    exact List.forall_mem_cons.mpr ⟨.head _, List.forall_mem_cons.mpr ⟨.tail _ (.head _),
      List.forall_mem_cons.mpr ⟨.tail _ (.tail _ (.head _)), fun _ hq =>
        absurd hq List.not_mem_nil⟩⟩⟩
  obtain ⟨-, x, -, ⟨hin, -⟩, -⟩ := (siteRefinement clientAddr).trace_map (fun _ _ hk => hk) hopen
    ⟨Site.inOrder_start hnbrs, rfl⟩
  obtain ⟨ws, t', htr⟩ := exists_trace_receives hin (fun _ => 255) hasked (hhost ▸ hrun)
  have htalk := hopen.append htr
  exact ⟨_, t', htalk, terminals_show_service clientAddr [addr 0] hnbrs 0 0 (.fill 170) talk _ t'
    htalk⟩

end DuckChat
