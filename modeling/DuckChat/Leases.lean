import DuckChat.Bounds
import DuckChat.Lib.Lease
import DuckChat.Lib.PastTime
import DuckChat.Renewal
import DuckChat.SlotZero

/-!
# Subscriptions as leases

A server announces its channels to its neighbours by joins that nobody acknowledges: when a channel
is made, and again when its last renewal is more than a minute old. A neighbour forgets a channel
that was not announced to it for two minutes. Both loops leave out their first slot, which holds
Common on both sides.

If a server goes through its pass at least every `pause` seconds, its joins reach a neighbour within
`delay` seconds, and the two are no more than a minute together, then no subscription that the
neighbour keeps for it ever times out, in any run of any network, as long as the server tells the
neighbour to leave nothing. All servers read one clock, which does not go back.

## Main definitions

* `ServerState.stamps` — the channels with their renewal times
* `announced`, `heard` — when joins were sent, and when they arrived
* `Timely`, `Punctual` — the passes are frequent and the joins arrive

## Main results

* `stamps_of_react` — what an input does to the renewal times
* `subscriptions_last` — joins never time out
-/

set_option autoImplicit false

namespace DuckChat

/-- The clock reading of an input. -/
def Input.now : Input → ℤ
  | .datagram _ _ _ now => now
  | .timeouts now => now
  | .renewal now => now

/-- The channels with their renewal times. -/
def ServerState.stamps (s : ServerState) : List (Name × ℤ) := s.channels.live.map Channel.stamp

/-- What a renewal makes of one of them. -/
def renewStamp (now : ℤ) (p : Name × ℤ) : Name × ℤ := if now - p.2 > MIN_1 then (p.1, now) else p

/-! ### Renewal times -/

/-- The renewal times after an input. -/
inductive StampStep (s : ServerState) (i : Input) (out : List Datagram) : List (Name × ℤ) → Prop
  | same (hi : ∀ now, i ≠ .renewal now) : StampStep s i out s.stamps
  | added {c : Name} (hi : ∀ now, i ≠ .renewal now)
      (h : ∀ b ∈ s.neighbours, (⟨b, .s2s (.join c)⟩ : Datagram) ∈ out) :
      StampStep s i out (s.stamps ++ [(c, i.now)])
  | left {c : Name} {ps : List (Name × ℤ)}
      (h : ∀ b ∈ s.neighbours, (⟨b, .s2s (.leave c)⟩ : Datagram) ∈ out) : StampStep s i out ps
  | renewed {now : ℤ} (hi : i = .renewal now)
      (h : ∀ p ∈ s.stamps.tail, now - p.2 > MIN_1 → ∀ b ∈ s.neighbours,
        (⟨b, .s2s (.join p.1)⟩ : Datagram) ∈ out) :
      StampStep s i out (s.stamps.take 1 ++ s.stamps.tail.map (renewStamp now))

section OneServer

variable {s s' : ServerState} {i : Input} {a b : Sockaddr} {c : Name} {u : Username} {now : ℤ}

theorem stamps_reqLogin (h : (reqLogin s a u).result = .ok s') : s'.stamps = s.stamps := by
  obtain ⟨users, -, ⟨-, rfl⟩ | ⟨chnl, chnls, mid, hl, hadd, -, rfl⟩⟩ := reqLogin_eq_ok_iff.mp h
  · rfl
  · rw [ServerState.stamps, ServerState.stamps, Table.live_overwrite (by rw [hl]; rfl), hl,
      List.map_cons, List.map_cons, ← stamp_addUser hadd]
    rfl

theorem stamps_reqLogout (h : (reqLogout s a).result = .ok s') : s'.stamps = s.stamps := by
  obtain ⟨usr, -, -, rfl⟩ := reqLogout_eq_ok_iff.mp h
  rw [ServerState.stamps, channels_loggedOut, List.map_map]
  rfl

theorem stampStep_reqJoin {drawn : Id} (h : (reqJoin s a c now).result = .ok s') :
    StampStep s (.datagram a (.client (.join c)) drawn now) (reqJoin s a c now).out s'.stamps := by
  obtain ⟨-, -, -, -, chnls, chnl, chnl', hk, hadd, hc⟩ := reqJoin_ok h
  have hstamp : chnl.stamp = chnl'.stamp := (stamp_addUser hadd).symm
  rcases hk with ⟨hf, rfl⟩ | ⟨hf, rfl, ht⟩
  · rw [ServerState.stamps, hc, stamps_storeChannel hf hstamp]
    exact .same fun _ h => by cases h
  · have hf' := findChannel_addChnl_self ht (findChannel_eq_none_iff.mp hf)
    rw [ServerState.stamps, hc, stamps_storeChannel hf' hstamp, (addChnl_eq_ok_iff.mp ht).2.2.1,
      List.map_append]
    refine .added (fun _ h => by cases h) fun b hb => ?_
    rw [reqJoin_out]
    exact List.mem_map_of_mem hb

theorem stampStep_reqLeave {drawn : Id} (h : (reqLeave s a c).result = .ok s') :
    StampStep s (.datagram a (.client (.leave c)) drawn now) (reqLeave s a c).out s'.stamps := by
  rcases reqLeave_ok (b := a) h with ⟨-, rfl, -⟩ |
    ⟨chnl, ret, chnl', hf, hr, ⟨-, rfl, -⟩ | ⟨-, -, hout⟩⟩
  · exact .same fun _ h => by cases h
  · have hstamp : chnl.stamp = chnl'.stamp :=
      Prod.ext (removeUserOf_ok hr).1.symm (removeUserOf_ok hr).2.1.symm
    rw [ServerState.stamps, stamps_storeChannel hf hstamp]
    exact .same fun _ h => by cases h
  · refine .left (c := c) fun b hb => ?_
    rw [hout]
    exact List.mem_map_of_mem hb

theorem stampStep_reqServJoin {drawn : Id} (h : (reqServJoin s a c now).result = .ok s') :
    StampStep s (.datagram a (.s2s (.join c)) drawn now) (reqServJoin s a c now).out
      s'.stamps := by
  rcases reqServJoin_cases s a c now with ⟨f, hf, -⟩ |
    ⟨srvr, srvr', _, hs, hj, rfl, ⟨-, hr, -⟩ | ⟨-, chnls, hadd, hr, hout⟩⟩
  · cases hf.symm.trans h
  · cases hr.symm.trans h
    exact .same fun _ h => by cases h
  · cases hr.symm.trans h
    rw [ServerState.stamps, (addChnl_eq_ok_iff.mp hadd).2.2.1, List.map_append]
    refine .added (fun _ h => by cases h) fun b hb => ?_
    rw [hout]
    exact List.mem_map_of_mem hb

theorem stamp_renewed (now : ℤ) (chnl : Channel) :
    (renewed now chnl).stamp = renewStamp now chnl.stamp := by
  rw [renewed]
  show _ = if now - chnl.tm > MIN_1 then (chnl.chnlName, now) else chnl.stamp
  split <;> rfl

theorem stampStep_renewalPass (h : (renewalPass s now).result = .ok s') :
    StampStep s (.renewal now) (renewalPass s now).out s'.stamps := by
  have hin := passInside_of_ok h
  rw [renewalPass] at h ⊢
  cases hl : s.channels.live with
  | nil =>
    rw [hl] at h
    cases h
    have hnil : s.stamps = [] := by rw [ServerState.stamps, hl, List.map_nil]
    have hstep : StampStep s (.renewal now) [] _ := .renewed rfl fun p hp => by
      rw [hnil] at hp
      exact absurd hp List.not_mem_nil
    rwa [hnil] at hstep ⊢
  | cons chnl chnls =>
    have hall : ∀ k ch, chnls[k]? = some ch → now - ch.tm > MIN_1 →
        s.neighbours = [] ∨ 1 + k < s.neighbours.length := fun k ch hk hold =>
      hin (1 + k) ch ⟨by omega, by rw [hl, Nat.add_comm, List.getElem?_cons_succ, hk], hold⟩
    rw [hl] at h
    simp only [renewalLoop_eq_ok hall, Emit.mk_ok_bind, Emit.pure_eq, List.append_nil] at h ⊢
    cases h
    have hs : s.stamps = chnl.stamp :: chnls.map Channel.stamp := by
      rw [ServerState.stamps, hl, List.map_cons]
    have hs' : ServerState.stamps { s with
          channels := s.channels.overwrite (chnl :: chnls.map (renewed now)) } =
        s.stamps.take 1 ++ s.stamps.tail.map (renewStamp now) := by
      rw [hs, ServerState.stamps, Table.live_overwrite (by rw [hl]; simp), List.map_cons,
        List.map_map, List.tail_cons, List.map_map]
      exact congrArg _ (List.map_congr_left fun ch _ => stamp_renewed now ch)
    rw [hs']
    refine .renewed rfl fun p hp hold b hb => ?_
    rw [hs] at hp
    obtain ⟨ch, hch, rfl⟩ := List.mem_map.mp hp
    refine List.mem_flatMap.mpr ⟨ch, hch, ?_⟩
    have hold : now - ch.tm > MIN_1 := hold
    rw [renewalJoins, if_pos hold]
    exact List.mem_map_of_mem hb

/-- **What an input does to the renewal times.** -/
theorem stamps_of_react (h : (react s i).result = .ok s') :
    StampStep s i (react s i).out s'.stamps := by
  have same : ∀ {out : List Datagram} {ps : List (Name × ℤ)}, ps = s.stamps →
      (∀ now, i ≠ .renewal now) → StampStep s i out ps := by
    rintro out _ rfl hi
    exact .same hi
  cases outcome_of_react h with
  | login h => exact same (stamps_reqLogin h) fun _ h => by cases h
  | logout h => exact same (stamps_reqLogout h) fun _ h => by cases h
  | join h => exact stampStep_reqJoin h
  | leave h => exact stampStep_reqLeave h
  | servJoin h => exact stampStep_reqServJoin h
  | servLeave h =>
    exact same (congrArg (fun t => t.live.map Channel.stamp) (reqServLeave_ok h).1) fun _ h => by
      cases h
  | timeouts h =>
    exact same (congrArg (fun t => t.live.map Channel.stamp) (timeoutScan_ok h).2.2.1) fun _ h => by
      cases h
  | renewal h => exact stampStep_renewalPass h
  | recorded hq => exact same rfl fun _ h => by rw [h] at hq; cases hq
  | idle hq => exact same rfl fun _ h => by rw [h] at hq; cases hq

theorem names_eq_stamps (s : ServerState) : s.names = s.stamps.map Prod.fst := by
  rw [ServerState.stamps, List.map_map]
  rfl

/-- A renewal keeps the names and their order. -/
theorem fst_renewStamps (now : ℤ) (ps : List (Name × ℤ)) :
    (ps.take 1 ++ ps.tail.map (renewStamp now)).map Prod.fst = ps.map Prod.fst := by
  have hfst : Prod.fst ∘ renewStamp now = Prod.fst := by
    funext p
    rw [Function.comp_apply, renewStamp]
    split <;> rfl
  rw [List.map_append, List.map_map, hfst, ← List.map_append, ← List.drop_one,
    List.take_append_drop]

theorem tail_renewStamps {ps : List (Name × ℤ)} (h : ps ≠ []) :
    (ps.take 1 ++ ps.tail.map (renewStamp now)).tail = ps.tail.map (renewStamp now) := by
  cases ps with
  | nil => exact absurd rfl h
  | cons p ps => rfl

/-- A channel that is announced is held. -/
theorem held_of_announced (h : (react s i).result = .ok s')
    (hd : (⟨b, .s2s (.join c)⟩ : Datagram) ∈ (react s i).out) : c ∈ s'.names := by
  rcases i with ⟨a, (rq | m), drawn, now⟩ | now | now
  · have hjoins : (⟨b, .s2s (.join c)⟩ : Datagram) ∈
        joinsOf c (handle s a (.client rq) drawn now).out :=
      List.mem_filter.mpr ⟨hd, decide_eq_true rfl⟩
    by_cases hrq : rq = .join c
    · subst hrq
      rw [names_reqJoin h]
      split
      · assumption
      · exact List.mem_append_right _ (List.mem_singleton_self c)
    · rw [joinsOf_client hrq] at hjoins
      exact absurd hjoins List.not_mem_nil
  · have hjoin : m.joinName = some c :=
      joinName_of_mem_packets (a := a) (b := a) (p := ⟨a, b, .join c⟩) (mem_packets.mpr ⟨rfl, hd⟩)
        rfl
    cases m with
    | join d =>
      cases hjoin
      obtain ⟨_, _, chnls, -, -, ⟨hc, rfl⟩ | ⟨-, hadd⟩, rfl⟩ := reqServJoin_ok h
      · exact hc
      · show c ∈ chnlNames chnls
        rw [chnlNames_addChnl hadd]
        exact List.mem_append_right _ (List.mem_singleton_self c)
    | leave d => cases hjoin
    | say m => cases hjoin
  · have hd : _ ∈ (timeoutScan s now).out := hd
    rw [timeoutScan_out] at hd
    exact absurd hd List.not_mem_nil
  · obtain ⟨d, hd, _, -, heq⟩ := mem_renewalPass_out hd
    cases heq
    rw [(renewalPass_ok h).2.2.1]
    exact hd

end OneServer

/-! ### What was said, and what was heard -/

section Logs

variable {ι : Type}

/-- When server `i` sent joins of a channel to an address. -/
def announced (i : ι) (b : Sockaddr) (c : Name) (log : List (Event ι)) : Set ℤ :=
  {r | ∃ e ∈ log, e.server = i ∧ e.input.now = r ∧ (⟨b, .s2s (.join c)⟩ : Datagram) ∈ e.sent}

/-- When server `j` got joins of a channel from an address. -/
def heard (j : ι) (a : Sockaddr) (c : Name) (log : List (Event ι)) : Set ℤ :=
  {t | ∃ e ∈ log, e.server = j ∧ ∃ drawn, e.input = .datagram a (.s2s (.join c)) drawn t}

/-- The one clock of all servers does not go back; server `i` went through its renewal pass no more
than `pause` seconds ago, or began no longer ago; and its joins to server `j` take no more than
`delay` seconds. -/
structure Timely (addr : ι ↪ Sockaddr) (i j : ι) (began pause delay : ℤ) (log : List (Event ι))
    (now : ℤ) : Prop where
  since : began ≤ now
  forward : ∀ e ∈ log, e.input.now ≤ now
  pass : now ≤ began + pause ∨
    ∃ e ∈ log, e.server = i ∧ ∃ t, e.input = .renewal t ∧ now ≤ t + pause
  arrive : ∀ c, Prompt delay now (announced i (addr j) c log) (heard j (addr i) c log)

/-- Server `i` never told an address to leave a channel. -/
def NoLeave (i : ι) (b : Sockaddr) (log : List (Event ι)) : Prop :=
  ∀ e ∈ log, e.server = i → ∀ c, (⟨b, .s2s (.leave c)⟩ : Datagram) ∉ e.sent

variable {i j : ι} {a b : Sockaddr} {c : Name} {log : List (Event ι)} {e : Event ι} {r now : ℤ}

/-- The channel whose join a datagram is. -/
def Payload.joinName : Payload → Option Name
  | .text _ => none
  | .s2s m => m.joinName

/-- The channel that an input joins for an address. -/
def Input.joinName (a : Sockaddr) : Input → Option Name
  | .datagram src (.s2s m) _ _ => if src = a then m.joinName else none
  | _ => none

/-- The time of a pass. -/
def Input.passTime : Input → Option ℤ
  | .renewal now => some now
  | _ => none

theorem Payload.joinName_eq_some {p : Payload} : p.joinName = some c ↔ p = .s2s (.join c) := by
  rcases p with t | (d | d | m) <;> simp [Payload.joinName, S2S.joinName]

theorem Input.joinName_eq_some {inp : Input} :
    inp.joinName a = some c ↔ ∃ drawn, inp = .datagram a (.s2s (.join c)) drawn inp.now := by
  rcases inp with ⟨src, (rq | d | d | m), drawn, t⟩ | t | t <;>
    simp [Input.joinName, S2S.joinName, Input.now]

theorem Input.passTime_eq_some {inp : Input} : inp.passTime = some now ↔ inp = .renewal now := by
  cases inp <;> simp [Input.passTime]

/-- Joins arrive, by going through the log. -/
theorem prompt_iff {delay : ℤ} :
    (∀ c, Prompt delay now (announced i b c log) (heard j a c log)) ↔
      ∀ e ∈ log, e.server = i → ∀ d ∈ e.sent, d.dest = b → ∀ c ∈ d.payload.joinName,
        e.input.now + delay ≤ now →
          ∃ e' ∈ log, e'.server = j ∧ e'.input.joinName a = some c ∧
            e.input.now ≤ e'.input.now := by
  constructor
  · rintro h e he hi ⟨_, p⟩ hsent rfl c hc hold
    rw [Option.mem_def, Payload.joinName_eq_some] at hc
    cases hc
    obtain ⟨t, ⟨e', he', hj, drawn, hinput⟩, hle⟩ := h c _ ⟨e, he, hi, rfl, hsent⟩ hold
    have ht : e'.input.now = t := by rw [hinput, Input.now]
    exact ⟨e', he', hj, Input.joinName_eq_some.mpr ⟨drawn, ht ▸ hinput⟩, ht ▸ hle⟩
  · rintro h c _ ⟨e, he, hi, rfl, hsent⟩ hold
    obtain ⟨e', he', hj, hjoin, hle⟩ := h e he hi _ hsent rfl c rfl hold
    exact ⟨_, ⟨e', he', hj, Input.joinName_eq_some.mp hjoin⟩, hle⟩

theorem timely_iff {addr : ι ↪ Sockaddr} {began pause delay : ℤ} :
    Timely addr i j began pause delay log now ↔
      began ≤ now ∧ (∀ e ∈ log, e.input.now ≤ now) ∧
        (now ≤ began + pause ∨
          ∃ e ∈ log, e.server = i ∧ ∃ t ∈ e.input.passTime, now ≤ t + pause) ∧
        ∀ e ∈ log, e.server = i → ∀ d ∈ e.sent, d.dest = addr j → ∀ c ∈ d.payload.joinName,
          e.input.now + delay ≤ now →
            ∃ e' ∈ log, e'.server = j ∧ e'.input.joinName (addr i) = some c ∧
              e.input.now ≤ e'.input.now := by
  have hpass : (∃ e ∈ log, e.server = i ∧ ∃ t ∈ e.input.passTime, now ≤ t + pause) ↔
      ∃ e ∈ log, e.server = i ∧ ∃ t, e.input = .renewal t ∧ now ≤ t + pause := by
    simp only [Option.mem_def, Input.passTime_eq_some]
  rw [hpass, ← prompt_iff]
  exact ⟨fun ⟨hs, hf, hp, ha⟩ => ⟨hs, hf, hp, ha⟩, fun ⟨hs, hf, hp, ha⟩ => ⟨hs, hf, hp, ha⟩⟩

instance [DecidableEq ι] (addr : ι ↪ Sockaddr) (i j : ι) (began pause delay : ℤ)
    (log : List (Event ι)) (now : ℤ) :
    Decidable (Timely addr i j began pause delay log now) :=
  decidable_of_iff _ timely_iff.symm

theorem mem_announced_cons : r ∈ announced i b c (e :: log) ↔
    (e.server = i ∧ e.input.now = r ∧ (⟨b, .s2s (.join c)⟩ : Datagram) ∈ e.sent) ∨
      r ∈ announced i b c log :=
  List.exists_mem_cons_iff _ _ _

theorem mem_heard_cons : r ∈ heard j a c (e :: log) ↔
    (e.server = j ∧ ∃ drawn, e.input = .datagram a (.s2s (.join c)) drawn r) ∨
      r ∈ heard j a c log :=
  List.exists_mem_cons_iff _ _ _

theorem announced_le (h : ∀ e ∈ log, e.input.now ≤ now) (hr : r ∈ announced i b c log) :
    r ≤ now := by
  obtain ⟨e, he, -, rfl, -⟩ := hr
  exact h e he

theorem heard_le (h : ∀ e ∈ log, e.input.now ≤ now) (hr : r ∈ heard j a c log) : r ≤ now := by
  obtain ⟨e, he, -, drawn, heq⟩ := hr
  have hnow := h e he
  rw [heq] at hnow
  exact hnow

/-! ### The server that announces -/

/-- A renewal time at which the channel was announced, no more than a minute before any pass. -/
structure Current (i : ι) (b : Sockaddr) (began : ℤ) (log : List (Event ι)) (p : Name × ℤ) :
    Prop where
  said : p.2 ∈ announced i b p.1 log
  since : began ≤ p.2
  fresh : ∀ e ∈ log, e.server = i → ∀ t, e.input = .renewal t → t ≤ p.2 + MIN_1

/-- The server announces its channels but the first, which is Common. -/
structure Announces (i : ι) (b : Sockaddr) (began : ℤ) (log : List (Event ι)) (s : ServerState) :
    Prop where
  neighbour : b ∈ s.neighbours
  first : s.names.head? = some common
  held : ∀ c, ∀ r ∈ announced i b c log, c ∈ s.names
  current : ∀ p ∈ s.stamps.tail, Current i b began log p

section Announcer

variable {s s' : ServerState} {began pause delay : ℤ} {inp : Input} {addr : ι ↪ Sockaddr}
  {sent : List Datagram} {p : Name × ℤ}

/-- Something else happens. -/
theorem Current.other (h : Current i b began log p)
    (he : e.server = i → ∀ t, e.input ≠ .renewal t) : Current i b began (e :: log) p where
  said := mem_announced_cons.mpr (Or.inr h.said)
  since := h.since
  fresh := List.forall_mem_cons.mpr ⟨fun hi t ht => absurd ht (he hi t), h.fresh⟩

/-- A pass leaves the channel out. -/
theorem Current.passed (h : Current i b began log p) (hold : ¬ now - p.2 > MIN_1) :
    Current i b began (⟨i, .renewal now, sent⟩ :: log) p where
  said := mem_announced_cons.mpr (Or.inr h.said)
  since := h.since
  fresh := by
    refine List.forall_mem_cons.mpr ⟨fun _ t ht => ?_, h.fresh⟩
    cases ht
    omega

/-- The channel is announced now. -/
theorem current_now (hbegan : began ≤ inp.now) (hforward : ∀ e ∈ log, e.input.now ≤ inp.now)
    (hsent : (⟨b, .s2s (.join c)⟩ : Datagram) ∈ sent) :
    Current i b began (⟨i, inp, sent⟩ :: log) (c, inp.now) where
  said := mem_announced_cons.mpr (Or.inl ⟨rfl, rfl, hsent⟩)
  since := hbegan
  fresh := by
    intro e he _ t ht
    have hle : e.input.now ≤ inp.now := by
      rcases List.mem_cons.mp he with rfl | he
      · exact Int.le_refl _
      · exact hforward e he
    rw [ht] at hle
    have hmin : MIN_1 = 60 := rfl
    have hle : t ≤ inp.now := hle
    show t ≤ inp.now + MIN_1
    omega

/-- No channel that is announced by passes is old. -/
theorem Current.recent (h : Current i b began log p)
    (ht : Timely addr i j began pause delay log now) : now - (pause + MIN_1) ≤ p.2 := by
  have hmin : MIN_1 = 60 := rfl
  rcases ht.pass with hpass | ⟨e, he, hi, t, hrenewal, hpass⟩
  · have hsince := h.since
    omega
  · have hfresh := h.fresh e he hi t hrenewal
    omega

theorem announces_start {addrs : List Sockaddr} {unset : ℤ} (hb : b ∈ addrs) :
    Announces i b began [] (ServerState.start addrs unset now) where
  neighbour := by rwa [neighbours_start]
  first := rfl
  held _ _ hr := by
    obtain ⟨e, he, -⟩ := hr
    exact absurd he List.not_mem_nil
  current _ hp := absurd hp List.not_mem_nil

theorem Announces.stamps_ne_nil (h : Announces i b began log s) : s.stamps ≠ [] := by
  intro hnil
  have hfirst := h.first
  rw [names_eq_stamps, hnil] at hfirst
  cases hfirst

/-- A channel that is not the first is behind it. -/
theorem Announces.exists_stamp (h : Announces i b began log s) (hmem : c ∈ s.names)
    (hc : c ≠ common) : ∃ p ∈ s.stamps.tail, p.1 = c := by
  have hfirst := h.first
  rw [names_eq_stamps] at hmem hfirst
  cases hl : s.stamps with
  | nil => exact absurd hl h.stamps_ne_nil
  | cons p ps =>
    rw [hl, List.map_cons] at hmem hfirst
    rcases List.mem_cons.mp hmem with heq | hmem
    · exact absurd (heq.trans (Option.some.inj hfirst)) hc
    · exact List.mem_map.mp hmem

/-- **Channels are announced often**, up to now. -/
theorem Announces.dense (h : Announces i b began log s)
    (ht : Timely addr i j began pause delay log now)
    (hd : ∃ clock, Dense (pause + MIN_1) clock (announced i b c log) ∧
      ∀ r ∈ announced i b c log, r ≤ clock)
    (hc : c ≠ common) : Dense (pause + MIN_1) now (announced i b c log) := by
  rcases (announced i b c log).eq_empty_or_nonempty with hnone | ⟨r, hr⟩
  · rw [hnone]
    exact dense_empty _ _
  obtain ⟨clock, hd, hclock⟩ := hd
  obtain ⟨p, hp, rfl⟩ := h.exists_stamp (h.held c r hr) hc
  have hcurrent := h.current p hp
  exact hd.extend hcurrent.said (hclock _ hcurrent.said) (hcurrent.recent ht)

/-- Another server does something. -/
theorem Announces.other (h : Announces i b began log s) (he : e.server ≠ i) :
    Announces i b began (e :: log) s where
  neighbour := h.neighbour
  first := h.first
  held c r hr := h.held c r ((mem_announced_cons.mp hr).resolve_left fun hnew => he hnew.1)
  current p hp := (h.current p hp).other fun hi => absurd hi he

/-- The server does something, and its channels stay. -/
theorem Announces.of_stamps (h : Announces i b began log s) (hst : (react s inp).result = .ok s')
    (hfirst : s'.names.head? = some common) (hnames : ∀ c ∈ s.names, c ∈ s'.names)
    (hcurrent : ∀ p ∈ s'.stamps.tail, Current i b began (⟨i, inp, (react s inp).out⟩ :: log) p) :
    Announces i b began (⟨i, inp, (react s inp).out⟩ :: log) s' where
  neighbour := by
    rw [neighbours_of_react hst]
    exact h.neighbour
  first := hfirst
  held c r hr := by
    rcases mem_announced_cons.mp hr with ⟨-, -, hsent⟩ | hr
    · exact held_of_announced hst hsent
    · exact hnames c (h.held c r hr)
  current := hcurrent

/-- **The server does something.** -/
theorem Announces.step (h : Announces i b began log s) (hst : (react s inp).result = .ok s')
    (hleave : ∀ c, (⟨b, .s2s (.leave c)⟩ : Datagram) ∉ (react s inp).out)
    (hbegan : began ≤ inp.now) (hforward : ∀ e ∈ log, e.input.now ≤ inp.now) :
    Announces i b began (⟨i, inp, (react s inp).out⟩ :: log) s' := by
  have hstep := stamps_of_react hst
  generalize hstamps : s'.stamps = ps at hstep
  have hnames : s'.names = ps.map Prod.fst := by rw [names_eq_stamps, hstamps]
  cases hstep with
  | same hi =>
    rw [← names_eq_stamps] at hnames
    refine h.of_stamps hst (hnames ▸ h.first) (fun c hc => hnames ▸ hc) fun p hp => ?_
    rw [hstamps] at hp
    exact (h.current p hp).other fun _ => hi
  | @added c hi hout =>
    rw [List.map_append, ← names_eq_stamps] at hnames
    refine h.of_stamps hst ?_ (fun c hc => hnames ▸ List.mem_append_left _ hc) fun p hp => ?_
    · rw [hnames, List.head?_append, h.first]
      rfl
    · rw [hstamps, List.tail_append_of_ne_nil h.stamps_ne_nil] at hp
      rcases List.mem_append.mp hp with hp | hp
      · exact (h.current p hp).other fun _ => hi
      · rw [List.mem_singleton.mp hp]
        exact current_now hbegan hforward (hout b h.neighbour)
  | @left c _ hout => exact absurd (hout b h.neighbour) (hleave c)
  | @renewed now hi hout =>
    subst hi
    have hn : s'.names = s.names := by rw [hnames, names_eq_stamps, fst_renewStamps]
    refine h.of_stamps hst (hn ▸ h.first) (fun c hc => hn ▸ hc) fun p hp => ?_
    rw [hstamps, tail_renewStamps h.stamps_ne_nil] at hp
    obtain ⟨q, hq, rfl⟩ := List.mem_map.mp hp
    rw [renewStamp]
    split
    · next hold => exact current_now hbegan hforward (hout q hq hold b h.neighbour)
    · next hold => exact (h.current q hq).passed hold

end Announcer

/-! ### The server that listens -/

variable [DecidableEq ι]

/-- The inputs of one server, the last one at the end. -/
def inputsAt (j : ι) : List (Event ι) → List Input
  | [] => []
  | e :: log => if e.server = j then inputsAt j log ++ [e.input] else inputsAt j log

/-- A record lists every channel that was heard of, and its timers are the times of the last
joins. -/
structure Listens (j : ι) (a : Sockaddr) (log : List (Event ι)) (srvr : Server) : Prop where
  addr : srvr.addr = a
  first : srvr.subs.head? = some common
  listed : ∀ c, ∀ t ∈ heard j a c log, c ∈ srvr.subs
  stamped : Stamped (inputsAt j log) srvr

section Listener

variable {s s' : ServerState} {srvr srvr' : Server} {began pause delay : ℤ} {inp : Input}
  {addr : ι ↪ Sockaddr} {drawn : Id} {sent : List Datagram} {d : Name}

theorem mem_inputsAt : inp ∈ inputsAt j log ↔ ∃ e ∈ log, e.server = j ∧ e.input = inp := by
  induction log with
  | nil => simp [inputsAt]
  | cons e log ih =>
    rw [inputsAt, List.exists_mem_cons_iff, ← ih]
    split
    · next he => simp [he, or_comm, eq_comm]
    · next he => simp [he]

/-- Clocks that do not go back. -/
theorem pairwise_inputsAt
    (h : Always (fun e earlier => ∀ e' ∈ earlier, e'.input.now ≤ e.input.now) log) :
    (inputsAt j log).Pairwise fun i i' => i.now ≤ i'.now := by
  induction log with
  | nil => exact .nil
  | cons e log ih =>
    rw [inputsAt]
    split
    · refine List.pairwise_append.mpr ⟨ih h.2, List.pairwise_singleton _ _, fun i hi i' hi' => ?_⟩
      obtain ⟨e', he', -, rfl⟩ := mem_inputsAt.mp hi
      rw [List.mem_singleton.mp hi']
      exact h.1 e' he'
    · exact ih h.2

/-- **A timer** is the latest time at which the channel was heard of. -/
theorem Listens.timed (h : Listens j a log srvr)
    (hforward : Always (fun e earlier => ∀ e' ∈ earlier, e'.input.now ≤ e.input.now) log) {k : ℕ}
    (hk : 1 ≤ k) (hc : srvr.subs[k]? = some c) :
    ∃ tm, srvr.timers.live[k]? = some tm ∧ tm ∈ heard j a c log ∧
      ∀ t ∈ heard j a c log, t ≤ tm := by
  obtain ⟨tm, htm, bs, drawn, ds, heq, hds⟩ := h.stamped.stamp k c hk hc
  rw [h.addr] at heq hds
  have hsorted := pairwise_inputsAt (j := j) hforward
  rw [heq] at hsorted
  have hin : ∀ t, t ∈ heard j a c log ↔
      ∃ drawn, .datagram a (.s2s (.join c)) drawn t ∈ inputsAt j log := by
    intro t
    simp only [mem_inputsAt]
    constructor
    · rintro ⟨e, he, hj, drawn, hinput⟩
      exact ⟨drawn, e, he, hj, hinput⟩
    · rintro ⟨drawn, e, he, hj, hinput⟩
      exact ⟨e, he, hj, drawn, hinput⟩
  refine ⟨tm, htm, (hin tm).mpr ⟨drawn, ?_⟩, fun t ht => ?_⟩
  · rw [heq]
    exact List.mem_append_right _ List.mem_cons_self
  · obtain ⟨drawn', hmem⟩ := (hin t).mp ht
    rw [heq] at hmem
    rcases List.mem_append.mp hmem with hmem | hmem
    · exact (List.pairwise_append.mp hsorted).2.2 _ hmem _ List.mem_cons_self
    · rcases List.mem_cons.mp hmem with hmem | hmem
      · cases hmem
        exact Int.le_refl _
      · exact absurd ⟨drawn', t, rfl⟩ (hds _ hmem)

theorem listens_start (unset : ℤ) : Listens j a [] (startServer a unset) where
  addr := rfl
  first := rfl
  listed c t ht := by
    obtain ⟨e, he, -⟩ := ht
    exact absurd he List.not_mem_nil
  stamped := by
    refine ⟨List.nodup_singleton _, fun k c hk hc => ?_⟩
    have hlt : k < 1 := (List.getElem?_eq_some_iff.mp hc).1
    omega

/-- Something else happens. -/
theorem Listens.other (h : Listens j a log srvr) (he : e.server = j → ∀ c, ¬ e.input.IsJoin a c) :
    Listens j a (e :: log) srvr where
  addr := h.addr
  first := h.first
  listed c t ht := by
    refine h.listed c t ((mem_heard_cons.mp ht).resolve_left ?_)
    rintro ⟨hj, drawn, hinput⟩
    exact he hj c ⟨drawn, t, hinput⟩
  stamped := by
    rw [inputsAt]
    split
    · next hj => exact h.stamped.within (.refl _) fun c => h.addr ▸ he hj c
    · exact h.stamped

/-- **A join arrives.** -/
theorem Listens.noteJoin (h : Listens j a log srvr) (hj : noteJoin srvr c now = .ok srvr') :
    Listens j a (⟨j, .datagram a (.s2s (.join c)) drawn now, sent⟩ :: log) srvr' where
  addr := (addr_noteJoin hj).trans h.addr
  first := head?_noteJoin h.first hj
  listed d t ht := by
    rw [mem_subs_noteJoin hj]
    rcases mem_heard_cons.mp ht with ⟨-, drawn', hinput⟩ | ht
    · cases hinput
      exact Or.inr rfl
    · exact Or.inl (h.listed d t ht)
  stamped := by
    rw [inputsAt, if_pos rfl]
    have haddr := h.addr
    subst haddr
    rcases noteJoin_cases hj with ⟨pos, hp, rfl⟩ | ⟨hp, hadd⟩
    · exact h.stamped.refreshed hp
    · refine h.stamped.added hp hadd ?_
      rw [(addChSrv_eq_ok_iff.mp hadd).2.2.2.1]
      exact List.nodup_append'.mpr ⟨h.stamped.nodup, List.nodup_singleton c,
        List.disjoint_singleton.mpr (not_mem_subs_of_find hp)⟩

/-- **No subscription is late**, if every channel but Common was heard of lately. -/
theorem Listens.timeoutLoop_eq (h : Listens j a log srvr)
    (hforward : Always (fun e earlier => ∀ e' ∈ earlier, e'.input.now ≤ e.input.now) log)
    (hnow : ∀ e ∈ log, e.input.now ≤ now)
    (hlate : ∀ c ≠ common, (∃ t, t ∈ heard j a c log) → ∃ t ∈ heard j a c log, now - MIN_2 ≤ t)
    (n : ℕ) : timeoutLoop now n 1 srvr = .ok srvr := by
  refine timeoutLoop_eq_self fun name hname => ?_
  obtain ⟨k, hk⟩ := List.mem_iff_getElem?.mp hname
  rw [List.getElem?_drop] at hk
  obtain ⟨tm, htm, hmem, hlast⟩ := h.timed hforward (Nat.le_add_right 1 k) hk
  -- Common is in the first slot, and nothing is listed twice
  have hne : name ≠ common := by
    rintro rfl
    have h0 : srvr.subs[0]? = some common := by rw [← List.head?_eq_getElem?, h.first]
    have hpos := (findChannelServer_eq_some_iff h.stamped.nodup).mpr h0
    rw [(findChannelServer_eq_some_iff h.stamped.nodup).mpr hk] at hpos
    have hzero := Option.some.inj hpos
    omega
  obtain ⟨t, ht, hlow⟩ := hlate name hne ⟨tm, hmem⟩
  have hle := hlast t ht
  have hup := heard_le hnow hmem
  rw [channelElapse_eq h.stamped.nodup hk, List.getD_eq_getElem?_getD, htm, Option.getD_some, toInt,
    Int.bmod_eq_of_le (by rw [MIN_2] at hlow; omega) (by rw [MIN_2] at hlow; omega)]
  omega

omit [DecidableEq ι] in
theorem findServerAddress_timeoutServers {srvs srvs' : List Server}
    (h : timeoutServers now srvs = .ok srvs') (hs : findServerAddress srvs a = some srvr)
    (hsame : timeoutLoop now srvr.numChnnls.toNat 1 srvr = .ok srvr) :
    findServerAddress srvs' a = some srvr := by
  have hall := forall₂_timeoutServers h
  clear h
  induction hall with
  | nil => exact hs
  | @cons x y xs ys hxy _ ih =>
    have haddr : x.addr = y.addr := (within_timeoutLoop hxy).addr
    rw [findServerAddress] at hs ih ⊢
    rw [List.find?_cons] at hs ⊢
    rw [haddr]
    cases hy : addrCmp y.addr a with
    | true =>
      rw [hy] at hs
      cases hs
      cases hxy.symm.trans hsame
      rfl
    | false =>
      rw [hy] at hs
      exact ih hs

/-- **The server does something**: the record is still there. -/
theorem Listens.step (h : Listens j a log srvr) (hs : findServerAddress s.cnnctSrvrs a = some srvr)
    (hst : (react s inp).result = .ok s')
    (hleave : ∀ c drawn now, inp ≠ .datagram a (.s2s (.leave c)) drawn now)
    (hfresh : ∀ now, inp = .timeouts now → timeoutLoop now srvr.numChnnls.toNat 1 srvr = .ok srvr) :
    ∃ srvr', findServerAddress s'.cnnctSrvrs a = some srvr' ∧
      Listens j a (⟨j, inp, sent⟩ :: log) srvr' := by
  have hstep := tables_of_react hst
  generalize s'.cnnctSrvrs = srvs' at hstep
  cases hstep with
  | kept hi => exact ⟨srvr, hs, h.other fun _ c => hi a c⟩
  | @joined b c drawn now old new hb hj =>
    have haddr : new.addr = b := (addr_noteJoin hj).trans (findServerAddress_some hb).2
    by_cases hab : a = b
    · subst hab
      cases hs.symm.trans hb
      refine ⟨new, findServerAddress_storeServer_self haddr ?_, h.noteJoin hj⟩
      exact isSome_findServerAddress_iff.mp (by rw [hs]; rfl)
    · rw [findServerAddress_storeServer_of_ne haddr hab]
      refine ⟨srvr, hs, h.other fun _ d => ?_⟩
      rintro ⟨_, _, heq⟩
      cases heq
      exact hab rfl
  | @left b c drawn now old hb h0 =>
    have hab : a ≠ b := by
      rintro rfl
      exact hleave c drawn now rfl
    have haddr : (old.setNumChnnls (old.numChnnls - 1)).addr = b := (findServerAddress_some hb).2
    rw [findServerAddress_storeServer_of_ne haddr hab]
    refine ⟨srvr, hs, h.other fun _ d => ?_⟩
    rintro ⟨_, _, heq⟩
    cases heq
  | @scanned now _ hscan =>
    refine ⟨srvr, findServerAddress_timeoutServers hscan hs (hfresh now rfl), h.other fun _ d => ?_⟩
    rintro ⟨_, _, heq⟩
    cases heq

end Listener

/-! ### The network -/

/-- What is in flight was sent by the server whose address it has. -/
def Authentic (addr : ι ↪ Sockaddr) (n : Net ι) : Prop :=
  ∀ p ∈ n.flight, ∃ e ∈ n.log, addr e.server = p.src ∧ (⟨p.dst, .s2s p.msg⟩ : Datagram) ∈ e.sent

/-- Server `i` runs and told server `j` to leave nothing, and at every event its passes had been
frequent and its joins had arrived. -/
structure Punctual (addr : ι ↪ Sockaddr) (i j : ι) (began pause delay : ℤ) (n : Net ι) : Prop where
  timely : Always (fun e earlier => Timely addr i j began pause delay earlier e.input.now) n.log
  quiet : NoLeave i (addr j) n.log
  running : ∃ s, n.node i = .running s

/-- Server `i` announces its channels often, and server `j` lists what it has heard of them. -/
structure Leased (addr : ι ↪ Sockaddr) (i j : ι) (began pause : ℤ) (n : Net ι) : Prop where
  honest : ∀ c, Honest (announced i (addr j) c n.log) (heard j (addr i) c n.log)
  dense : ∀ c ≠ common, ∃ clock, Dense (pause + MIN_1) clock (announced i (addr j) c n.log) ∧
    ∀ r ∈ announced i (addr j) c n.log, r ≤ clock
  announces : ∀ s, n.node i = .running s → Announces i (addr j) began n.log s
  listens : ∀ s, n.node j = .running s → ∃ srvr,
    findServerAddress s.cnnctSrvrs (addr i) = some srvr ∧ Listens j (addr i) n.log srvr

section Network

variable {addr : ι ↪ Sockaddr} {n n₀ n' : Net ι} {s : ServerState} {k : ι} {inp : Input}
  {began pause delay : ℤ}

theorem Authentic.act (h : Authentic addr n) : Authentic addr (n.act addr k inp) := by
  rcases n.act_cases addr k inp with ⟨f, -, ha⟩ | ⟨s, -, -, -, hf, hl⟩
  · rw [ha]
    exact h
  · intro p hp
    rw [hf] at hp
    rw [hl]
    rcases List.mem_append.mp hp with hp | hp
    · obtain ⟨e, he, hsent⟩ := h p hp
      exact ⟨e, List.mem_cons_of_mem _ he, hsent⟩
    · obtain ⟨hsrc, hsent⟩ := mem_packets.mp hp
      exact ⟨_, List.mem_cons_self, hsrc.symm, hsent⟩

/-- **Wires carry what was sent.** -/
theorem Authentic.step {a : Action ι} (h : Authentic addr n) (hst : Net.step addr n a = some n') :
    Authentic addr n' := by
  rcases Net.step_cases hst with ⟨n₀, k, inp, -, hlog, hflight, -, rfl⟩ | ⟨-, hlog, hflight⟩
  · refine Authentic.act fun p hp => ?_
    rw [hlog]
    exact h p (hflight p hp)
  · intro p hp
    rw [hlog]
    exact h p (hflight p hp)

omit [DecidableEq ι] in
/-- What arrives from a server was sent by it. -/
theorem Authentic.exists_sent {m : S2S} (h : Authentic addr n) (hp : ⟨addr i, b, m⟩ ∈ n.flight) :
    ∃ e ∈ n.log, e.server = i ∧ (⟨b, .s2s m⟩ : Datagram) ∈ e.sent := by
  obtain ⟨e, he, hsrc, hsent⟩ := h _ hp
  exact ⟨e, he, addr.injective hsrc, hsent⟩

/-- **Now** every channel but Common has been announced often, so what was ever heard of was heard
of in the last two minutes. -/
theorem Leased.exists_heard (h : Leased addr i j began pause n) (hi : n.node i = .running s)
    (ht : Timely addr i j began pause delay n.log now) (hpause : 0 ≤ pause) (hdelay : 0 ≤ delay)
    (hsum : pause + delay ≤ MIN_1) (hc : c ≠ common)
    (hheard : ∃ t, t ∈ heard j (addr i) c n.log) :
    ∃ t ∈ heard j (addr i) c n.log, now - MIN_2 ≤ t := by
  have hdense := (h.announces s hi).dense ht (h.dense c hc) hc
  obtain ⟨t, hmem⟩ := hheard
  have hmin : MIN_1 = 60 ∧ MIN_2 = 120 := ⟨rfl, rfl⟩
  obtain ⟨t', ht', hle⟩ := hdense.exists_heard (ht.arrive c) (h.honest c) (by omega) hdelay hmem
  exact ⟨t', ht', by omega⟩

theorem Leased.congr (h : Leased addr i j began pause n) (hnode : n'.node = n.node)
    (hlog : n'.log = n.log) : Leased addr i j began pause n' := by
  obtain ⟨hhonest, hdense, hann, hlis⟩ := h
  refine ⟨?_, ?_, ?_, ?_⟩ <;> rw [hlog]
  · exact hhonest
  · exact hdense
  · rwa [hnode]
  · rwa [hnode]

/-- What is heard was announced, also now. -/
theorem Leased.honest_cons (h : Leased addr i j began pause n)
    (hsent : ∀ m drawn now, inp = .datagram (addr i) (.s2s m) drawn now →
      ∃ e ∈ n.log, e.server = i ∧ (⟨addr k, .s2s m⟩ : Datagram) ∈ e.sent)
    (hnow : ∀ e ∈ n.log, e.input.now ≤ inp.now) {sent : List Datagram} (c : Name) :
    Honest (announced i (addr j) c (⟨k, inp, sent⟩ :: n.log))
      (heard j (addr i) c (⟨k, inp, sent⟩ :: n.log)) := by
  intro t ht
  rcases mem_heard_cons.mp ht with ⟨rfl, drawn, hinput⟩ | ht
  · have hinput : inp = .datagram (addr i) (.s2s (.join c)) drawn t := hinput
    subst hinput
    obtain ⟨e, he, hi, hsent⟩ := hsent _ _ _ rfl
    exact ⟨e.input.now, mem_announced_cons.mpr (Or.inr ⟨e, he, hi, rfl, hsent⟩), hnow e he⟩
  · obtain ⟨r, hr, hle⟩ := h.honest c t ht
    exact ⟨r, mem_announced_cons.mpr (Or.inr hr), hle⟩

/-- Every channel but Common is announced often, also now. -/
theorem Leased.dense_cons (h : Leased addr i j began pause n) (hi : n.node i = .running s)
    (ht : Timely addr i j began pause delay n.log inp.now) (hpause : 0 ≤ pause)
    {sent : List Datagram} (hc : c ≠ common) :
    ∃ clock, Dense (pause + MIN_1) clock (announced i (addr j) c (⟨k, inp, sent⟩ :: n.log)) ∧
      ∀ r ∈ announced i (addr j) c (⟨k, inp, sent⟩ :: n.log), r ≤ clock := by
  have hdense := (h.announces s hi).dense ht (h.dense c hc) hc
  have hmin : MIN_1 = 60 := rfl
  refine ⟨inp.now, ?_, fun r hr => ?_⟩
  · by_cases hnew : k = i ∧ (⟨addr j, .s2s (.join c)⟩ : Datagram) ∈ sent
    · have hinsert : announced i (addr j) c (⟨k, inp, sent⟩ :: n.log) =
          insert inp.now (announced i (addr j) c n.log) := by
        ext r
        rw [mem_announced_cons, Set.mem_insert_iff]
        exact or_congr_left ⟨fun hr => hr.2.1.symm, fun hr => ⟨hnew.1, hr.symm, hnew.2⟩⟩
      rw [hinsert]
      exact hdense.insert (by omega)
    · have hsame : announced i (addr j) c (⟨k, inp, sent⟩ :: n.log) =
          announced i (addr j) c n.log := by
        ext r
        rw [mem_announced_cons]
        exact or_iff_right fun hr => hnew ⟨hr.1, hr.2.2⟩
      rw [hsame]
      exact hdense
  · rcases mem_announced_cons.mp hr with ⟨-, rfl, -⟩ | hr
    · exact Int.le_refl _
    · exact announced_le ht.forward hr

omit [DecidableEq ι] in
theorem Punctual.congr (h : Punctual addr i j began pause delay n') (hnode : n'.node = n.node)
    (hlog : n'.log = n.log) : Punctual addr i j began pause delay n where
  timely := hlog ▸ h.timely
  quiet := hlog ▸ h.quiet
  running := hnode ▸ h.running

/-- What was punctual until now was so before. -/
theorem Punctual.of_act (h : Punctual addr i j began pause delay (n.act addr k inp)) :
    Punctual addr i j began pause delay n := by
  obtain ⟨ht, hquiet, s, hs⟩ := h
  rcases n.act_cases addr k inp with ⟨f, -, ha⟩ | ⟨sk, hsk, -, hne, -, hl⟩
  · rw [ha] at ht hquiet hs
    exact ⟨ht, hquiet, s, hs⟩
  · rw [hl] at ht hquiet
    refine ⟨ht.2, (List.forall_mem_cons.mp hquiet).2, ?_⟩
    by_cases hki : i = k
    · rw [hki]
      exact ⟨sk, hsk⟩
    · exact ⟨s, (hne i hki).symm.trans hs⟩

/-- **The step lemma.** -/
theorem Leased.act (h : Leased addr i j began pause n)
    (hsent : ∀ m drawn now, inp = .datagram (addr i) (.s2s m) drawn now →
      ∃ e ∈ n.log, e.server = i ∧ (⟨addr k, .s2s m⟩ : Datagram) ∈ e.sent)
    (hpause : 0 ≤ pause) (hdelay : 0 ≤ delay) (hsum : pause + delay ≤ MIN_1)
    (hpunct : Punctual addr i j began pause delay (n.act addr k inp)) :
    Leased addr i j began pause (n.act addr k inp) := by
  obtain ⟨ht, hquiet, -⟩ := id hpunct
  obtain ⟨si, hsi⟩ := hpunct.of_act.running
  rcases n.act_cases addr k inp with ⟨f, -, ha⟩ | ⟨sk, hsk, -, hne, -, hl⟩
  · rwa [ha]
  rw [hl] at ht hquiet
  obtain ⟨hnow, hbefore⟩ := ht
  have hnow : Timely addr i j began pause delay n.log inp.now := hnow
  obtain ⟨hquiet, hquiet₀⟩ := List.forall_mem_cons.mp hquiet
  refine ⟨?_, ?_, fun s' hs' => ?_, fun s' hs' => ?_⟩ <;> rw [hl]
  · exact h.honest_cons hsent hnow.forward
  · exact fun c hc => h.dense_cons hsi hnow hpause hc
  · by_cases hki : i = k
    · subst hki
      obtain ⟨t, ht, hst⟩ := Net.exists_of_act_running hs'
      cases hsk.symm.trans ht
      exact (h.announces sk hsk).step hst (hquiet rfl) hnow.since hnow.forward
    · rw [hne i hki] at hs'
      exact (h.announces s' hs').other (Ne.symm hki)
  · by_cases hkj : j = k
    · subst hkj
      obtain ⟨t, ht, hst⟩ := Net.exists_of_act_running hs'
      cases hsk.symm.trans ht
      obtain ⟨srvr, hs, hlis⟩ := h.listens sk hsk
      refine hlis.step hs hst ?_ ?_
      · -- the announcing server sent no leave that could arrive
        rintro c drawn now rfl
        obtain ⟨e, he, hei, hsent⟩ := hsent _ _ _ rfl
        exact hquiet₀ e he hei c hsent
      · rintro now rfl
        have hforward : Always (fun e earlier => ∀ e' ∈ earlier, e'.input.now ≤ e.input.now)
            n.log := hbefore.mono fun e earlier he => he.forward
        exact hlis.timeoutLoop_eq hforward hnow.forward (fun c hc hheard =>
          h.exists_heard hsi hnow hpause hdelay hsum hc hheard) _
    · rw [hne j hkj] at hs'
      obtain ⟨srvr, hs, hlis⟩ := h.listens s' hs'
      exact ⟨srvr, hs, hlis.other fun hj => absurd hj.symm hkj⟩

omit [DecidableEq ι] in
theorem findServerAddress_start {addrs : List Sockaddr} {unset start : ℤ} (ha : a ∈ addrs) :
    findServerAddress (ServerState.start addrs unset start).cnnctSrvrs a =
      some (startServer a unset) := by
  have hmem : a ∈ (ServerState.start addrs unset start).neighbours := by rwa [neighbours_start]
  obtain ⟨srvr, hs⟩ := Option.isSome_iff_exists.mp (isSome_findServerAddress_iff.mpr hmem)
  obtain ⟨hin, haddr⟩ := findServerAddress_some hs
  obtain ⟨b, -, rfl⟩ := List.mem_map.mp hin
  have hab : b = a := haddr
  rw [hs, hab]

theorem leased_start {nbrs : ι → List Sockaddr} {unset start : ι → ℤ} (hij : addr j ∈ nbrs i)
    (hji : addr i ∈ nbrs j) : Leased addr i j began pause (Net.start nbrs unset start) where
  honest _ _ ht := by
    obtain ⟨e, he, -⟩ := ht
    exact absurd he List.not_mem_nil
  dense c _ := by
    refine ⟨0, fun _ _ hr => ?_, fun r hr => ?_⟩
    · obtain ⟨r, ⟨e, he, -⟩, -⟩ := hr
      exact absurd he List.not_mem_nil
    · obtain ⟨e, he, -⟩ := hr
      exact absurd he List.not_mem_nil
  announces s hs := by
    cases hs
    exact announces_start hij
  listens s hs := by
    cases hs
    exact ⟨_, findServerAddress_start hji, listens_start _⟩

/-- **The run lemma.** -/
theorem leased_of_run {nbrs : ι → List Sockaddr} {unset start : ι → ℤ} {as : List (Action ι)}
    (hrun : Run (Net.step addr) (fun _ _ => True) (Net.start nbrs unset start) as n)
    (hij : addr j ∈ nbrs i) (hji : addr i ∈ nbrs j) (hpause : 0 ≤ pause) (hdelay : 0 ≤ delay)
    (hsum : pause + delay ≤ MIN_1) (hpunct : Punctual addr i j began pause delay n) :
    Leased addr i j began pause n := by
  have hinv : Authentic addr n ∧
      (Punctual addr i j began pause delay n → Leased addr i j began pause n) := by
    refine hrun.invariant (P := fun n => Authentic addr n ∧
      (Punctual addr i j began pause delay n → Leased addr i j began pause n)) ?_
      ⟨fun _ hp => absurd hp List.not_mem_nil, fun _ => leased_start hij hji⟩
    rintro n a n' ⟨hauth, hleased⟩ - hst
    refine ⟨hauth.step hst, fun hpunct => ?_⟩
    rcases Net.step_cases hst with ⟨n₀, k, inp, hnode, hlog, hflight, hp, rfl⟩ |
      ⟨hnode, hlog, -⟩
    · have hleased₀ := (hleased (hpunct.of_act.congr hnode hlog)).congr hnode hlog
      refine hleased₀.act (fun m drawn now heq => ?_) hpause hdelay hsum hpunct
      rw [hlog]
      exact hauth.exists_sent (hp _ _ _ _ heq)
    · exact (hleased (hpunct.congr hnode hlog)).congr hnode hlog
  exact hinv.2 hpunct

/-- **Joins never time out.** If a server goes through its pass at least every `pause` seconds, its
joins reach a neighbour within `delay` seconds, and the two are no more than a minute together, then
in every run of any network whose servers share a clock that does not go back, a neighbour that was
told to leave nothing is still subscribed to whatever it was told to join, and every channel but
Common was announced to it lately. -/
theorem subscriptions_last (addr : ι ↪ Sockaddr) (nbrs : ι → List Sockaddr) (unset start : ι → ℤ)
    (i j : ι) (hij : addr j ∈ nbrs i) (hji : addr i ∈ nbrs j) (began pause delay : ℤ)
    (hpause : 0 ≤ pause) (hdelay : 0 ≤ delay) (hsum : pause + delay ≤ MIN_1)
    (as : List (Action ι)) (n : Net ι)
    (hrun : Run (Net.step addr) (fun _ _ => True) (Net.start nbrs unset start) as n)
    (hpunct : Punctual addr i j began pause delay n) (now : ℤ)
    (ht : Timely addr i j began pause delay n.log now) (si sj : ServerState)
    (hi : n.node i = .running si) (hj : n.node j = .running sj) (c : Name) :
    (∀ t ∈ heard j (addr i) c n.log, c ∈ sj.subsOf (addr i)) ∧
      (c ∈ si.names → c ≠ common → ∃ r ∈ announced i (addr j) c n.log,
        now - (pause + MIN_1) ≤ r ∧ (r + delay ≤ now → c ∈ sj.subsOf (addr i))) := by
  have hleased := leased_of_run hrun hij hji hpause hdelay hsum hpunct
  obtain ⟨srvr, hs, hlis⟩ := hleased.listens sj hj
  have hann := hleased.announces si hi
  rw [subsOf_eq hs]
  refine ⟨hlis.listed c, fun hmem hc => ?_⟩
  obtain ⟨p, hp, rfl⟩ := hann.exists_stamp hmem hc
  have hcurrent := hann.current p hp
  refine ⟨p.2, hcurrent.said, hcurrent.recent ht, fun hold => ?_⟩
  obtain ⟨t, hheard, -⟩ := ht.arrive p.1 p.2 hcurrent.said hold
  exact hlis.listed p.1 t hheard

end Network

end Logs

/-- A channel is made at server 0. The third pass renews it, and it does not time out at server 1,
where it was first heard of more than two minutes ago. -/
def Three.twoMinutes : List (Action (Fin 3)) :=
  [request 0 (.login (username 0)) 0, request 0 (.join chnlX) 0,
    .deliver 1 ⟨addr 0, addr 1, .join chnlX⟩ 5, .renewal 0 30, .renewal 0 60, .renewal 0 90,
    .deliver 1 ⟨addr 0, addr 1, .join chnlX⟩ 95, .renewal 0 120, .timeouts 1 130]

open Three in
theorem subscriptions_last_on_twoMinutes :
    ∃ n sj, Run (Net.step addr) (fun _ _ => True)
        (Net.start triangle.nbrAddrs (fun _ => 0) fun _ => 0) twoMinutes n ∧
      n.node 1 = .running sj ∧ chnlX ∈ sj.subsOf (addr 0) := by
  have h : (execute (Net.step addr) (fun _ _ => True)
      (Net.start triangle.nbrAddrs (fun _ => 0) fun _ => 0) twoMinutes).any (fun n =>
        (n.node 0).isRunning ∧ (n.node 1).isRunning ∧
          Always (fun e earlier => Timely addr 0 1 0 30 30 earlier e.input.now) n.log ∧
          (∀ e ∈ n.log, ∀ d ∈ e.sent, d.payload.joinName.isSome) ∧
          Timely addr 0 1 0 30 30 n.log 130 ∧
          ∃ e ∈ n.log, e.server = 1 ∧ e.input.joinName (addr 0) = some chnlX) = true := by
    decide
  obtain ⟨n, hrun, hn⟩ := exists_run_of_execute h
  obtain ⟨h0, h1, hpast, hjoins, hnow, e, he, hserver, hjoin⟩ := of_decide_eq_true hn
  obtain ⟨s0, h0⟩ := Node.exists_of_isRunning h0
  obtain ⟨s1, h1⟩ := Node.exists_of_isRunning h1
  have hquiet : NoLeave 0 (addr 1) n.log := by
    intro e he _ c hsent
    have hsome := hjoins e he _ hsent
    cases hsome
  exact ⟨n, s1, hrun, h1, (subscriptions_last addr triangle.nbrAddrs (fun _ => 0) (fun _ => 0) 0 1
    (by decide) (by decide) 0 30 30 (by decide) (by decide) (by decide) twoMinutes n hrun
    ⟨hpast, hquiet, s0, h0⟩ 130 hnow s0 s1 h0 h1 chnlX).1 _
      ⟨e, he, hserver, Input.joinName_eq_some.mp hjoin⟩⟩

end DuckChat
