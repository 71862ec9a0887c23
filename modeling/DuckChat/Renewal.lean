import DuckChat.NetworkRules
import DuckChat.Roster

/-!
# The renewal pass of an iteration

At the end of each turn of the loop of `main` every channel but the first is announced again if its
last renewal is more than a minute old. Two branches of the `switch` leave the turn before that by
`continue`, and the pass itself, when it prints what it is about to send, looks into the table of
neighbours at the index of the channel.

## Main definitions

* `untilPass`, `jumpsPass` — an iteration up to the label `resub`, and whether it gets there
* `Overdue` — a channel that the pass has to renew
* `Renews` — each overdue channel is announced once to each neighbour and is overdue no more
* `PassReaches` — the pass is reached and stays inside its tables, from what is there before it

## Main results

* `renewalLoop_eq_ok`, `renewalLoop_eq_error` — the pass, inside its tables and outside
* `renews_iff`
-/

set_option autoImplicit false

namespace DuckChat

/-! ### An iteration in two parts -/

/-- An iteration up to the label `resub`: the timeout scan and the `switch`. -/
def untilPass (s : ServerState) (received : Option (Sockaddr × Request × Id)) (now : ℤ) :
    Act ServerState := do
  let s ← timeoutScan s now
  match received with
  | none => pure s
  | some (clientAddr, rq, drawn) => handle s clientAddr rq drawn now

/-- The iteration ends in front of the label. -/
def jumpsPass (s : ServerState) : Option (Sockaddr × Request × Id) → Bool
  | none => false
  | some (_, rq, _) => skipsRenewal s rq

/-- A join that a client requests is announced by its handler. -/
def announces (c : Name) : Option (Sockaddr × Request × Id) → Bool
  | some (_, .client (.join d), _) => d == c
  | _ => false

/-- A channel behind the first whose last renewal is more than a minute ago. -/
structure Overdue (s : ServerState) (now : ℤ) (i : ℕ) (chnl : Channel) : Prop where
  pos : 1 ≤ i
  get : s.channels.live[i]? = some chnl
  old : now - chnl.tm > MIN_1

/-- The joins of a channel among what was sent. -/
def joinsOf (c : Name) (out : List Datagram) : List Datagram :=
  out.filter fun d => decide (d.payload = .s2s (.join c))

/-- One join of a channel for each neighbour. -/
def joinEach (nbrs : List Sockaddr) (c : Name) : List Datagram :=
  nbrs.map fun b => ⟨b, .s2s (.join c)⟩

/-- The iteration that reaches the end of the `switch` in `s₂` comes to its end, and each channel
that is overdue there is renewed: its renewal time is now, and one join of it was sent to each
neighbour in the whole iteration. -/
def Renews (s : ServerState) (received : Option (Sockaddr × Request × Id)) (now : ℤ)
    (s₂ : ServerState) : Prop :=
  ∃ s', (iteration s received now).result = .ok s' ∧
    ∀ i chnl, Overdue s₂ now i chnl →
      s'.channels.live[i]? = some { chnl with tm := now } ∧
        joinsOf chnl.chnlName (iteration s received now).out =
          joinEach s.neighbours chnl.chnlName

/-- The channels that are there before and after the `switch`, as they are before it: a leave takes
a channel with one user out. -/
def channelsLeft (s : ServerState) : Option (Sockaddr × Request × Id) → List Channel
  | some (_, .client (.leave c), _) =>
      if (findChannel s.channels c).any fun chnl => chnl.numUsers = 1 then
        s.channels.live.eraseP (chnlCmp c)
      else s.channels.live
  | _ => s.channels.live

/-- If a channel that is left is overdue, the pass is reached; and if there are neighbours, the
index of the channel is below their number and the request was no join of the channel. -/
def PassReaches (s : ServerState) (received : Option (Sockaddr × Request × Id)) (now : ℤ) : Prop :=
  ∀ i chnl, 1 ≤ i → (channelsLeft s received)[i]? = some chnl → now - chnl.tm > MIN_1 →
    jumpsPass s received = false ∧
      (s.neighbours = [] ∨
        i < s.neighbours.length ∧ announces chnl.chnlName received = false)

/-! ### The pass -/

section Pass

variable {s s' : ServerState} {nbrs : List Sockaddr} {chnls : List Channel} {chnl : Channel}
  {c : Name} {now : ℤ} {i k : ℕ}

/-- What the pass makes of a channel. -/
def renewed (now : ℤ) (chnl : Channel) : Channel :=
  if now - chnl.tm > MIN_1 then { chnl with tm := now } else chnl

/-- What it sends for it. -/
def renewalJoins (nbrs : List Sockaddr) (now : ℤ) (chnl : Channel) : List Datagram :=
  if now - chnl.tm > MIN_1 then joinEach nbrs chnl.chnlName else []

/-- **The pass inside its tables** renews channel by channel. -/
theorem renewalLoop_eq_ok (h : ∀ k chnl, chnls[k]? = some chnl → now - chnl.tm > MIN_1 →
    nbrs = [] ∨ i + k < nbrs.length) :
    renewalLoop nbrs now i chnls =
      ⟨chnls.flatMap (renewalJoins nbrs now), .ok (chnls.map (renewed now))⟩ := by
  induction chnls generalizing i with
  | nil => rfl
  | cons chnl chnls ih =>
    have ih := ih (i := i + 1) fun k ch hk hold => by
      have hidx : i + (k + 1) = i + 1 + k := by omega
      rw [← hidx]
      exact h (k + 1) ch hk hold
    rw [renewalLoop_cons, ih, List.flatMap_cons, List.map_cons]
    split
    · next hold =>
      have hin := h 0 chnl rfl hold
      rw [Nat.add_zero] at hin
      rw [if_neg (by rintro ⟨hne, hle⟩; exact hin.elim hne (by omega)), renewalJoins, if_pos hold,
        renewed, if_pos hold]
      rfl
    · next hold =>
      rw [renewalJoins, if_neg hold, renewed, if_neg hold]
      rfl

/-- **Outside**: it stops at a channel whose index is no index of a neighbour. -/
theorem renewalLoop_eq_error (hk : chnls[k]? = some chnl) (hold : now - chnl.tm > MIN_1)
    (hne : nbrs ≠ []) (hle : nbrs.length ≤ i + k) :
    (renewalLoop nbrs now i chnls).result = .error .read := by
  induction chnls generalizing i k with
  | nil => cases hk
  | cons ch chnls ih =>
    rw [renewalLoop_cons]
    cases k with
    | zero =>
      cases hk
      rw [if_pos hold, if_pos ⟨hne, hle⟩]
    | succ k =>
      have ih := ih (i := i + 1) hk (by omega)
      split
      · split
        · rfl
        · rw [ih]
          rfl
      · rw [ih]
        rfl

/-- The joins of one channel among those of the pass. -/
theorem joinsOf_flatMap (hnd : (chnls.map Channel.chnlName).Nodup) (hm : chnl ∈ chnls)
    (hold : now - chnl.tm > MIN_1) :
    joinsOf chnl.chnlName (chnls.flatMap (renewalJoins nbrs now)) =
      joinEach nbrs chnl.chnlName := by
  have hself : ∀ c, joinsOf c (joinEach nbrs c) = joinEach nbrs c := fun c => by
    refine List.filter_eq_self.mpr fun d hd => ?_
    obtain ⟨b, -, rfl⟩ := List.mem_map.mp hd
    exact decide_eq_true rfl
  have hother : ∀ ch : Channel, ch.chnlName ≠ chnl.chnlName →
      joinsOf chnl.chnlName (renewalJoins nbrs now ch) = [] := fun ch hne => by
    refine List.filter_eq_nil_iff.mpr fun d hd => ?_
    rw [renewalJoins] at hd
    split at hd
    · obtain ⟨b, -, rfl⟩ := List.mem_map.mp hd
      simpa using hne
    · exact absurd hd List.not_mem_nil
  induction chnls with
  | nil => exact absurd hm List.not_mem_nil
  | cons ch chnls ih =>
    rw [List.map_cons, List.nodup_cons] at hnd
    rw [List.flatMap_cons, joinsOf, List.filter_append, ← joinsOf, ← joinsOf]
    rcases List.mem_cons.mp hm with rfl | hm
    · have hrest : joinsOf chnl.chnlName (chnls.flatMap (renewalJoins nbrs now)) = [] := by
        refine List.filter_eq_nil_iff.mpr fun d hd => ?_
        obtain ⟨ch, hch, hd⟩ := List.mem_flatMap.mp hd
        have hne : ch.chnlName ≠ chnl.chnlName := fun heq =>
          hnd.1 (heq ▸ List.mem_map_of_mem (f := Channel.chnlName) hch)
        exact List.filter_eq_nil_iff.mp (hother ch hne) d hd
      rw [hrest, List.append_nil, renewalJoins, if_pos hold, hself]
    · have hne : ch.chnlName ≠ chnl.chnlName := fun heq =>
        hnd.1 (heq ▸ List.mem_map_of_mem (f := Channel.chnlName) hm)
      rw [hother ch hne, List.nil_append, ih hnd.2 hm]

theorem Overdue.joinsOf_pass (ho : Overdue s now i chnl) (hnd : s.names.Nodup) :
    joinsOf chnl.chnlName ((s.channels.live.drop 1).flatMap (renewalJoins nbrs now)) =
      joinEach nbrs chnl.chnlName := by
  have hidx : 1 + (i - 1) = i := by
    have := ho.pos
    omega
  have hmem : chnl ∈ s.channels.live.drop 1 :=
    List.mem_of_getElem? (by rw [List.getElem?_drop, hidx, ho.get])
  exact joinsOf_flatMap (hnd.sublist ((List.drop_sublist 1 _).map _)) hmem ho.old

/-- The pass over the whole table. -/
theorem renewalPass_eq_ok (h : ∀ i chnl, Overdue s now i chnl →
    s.neighbours = [] ∨ i < s.neighbours.length) :
    ∃ s', renewalPass s now =
        ⟨(s.channels.live.drop 1).flatMap (renewalJoins s.neighbours now), .ok s'⟩ ∧
      ∀ i chnl, Overdue s now i chnl →
        s'.channels.live[i]? = some { chnl with tm := now } := by
  rw [renewalPass]
  split
  · next hl =>
    refine ⟨s, by rw [hl]; rfl, fun i chnl ho => ?_⟩
    have := ho.get
    rw [hl] at this
    cases this
  · next chnl chnls hl =>
    have hin : ∀ k ch, chnls[k]? = some ch → now - ch.tm > MIN_1 →
        s.neighbours = [] ∨ 1 + k < s.neighbours.length := fun k ch hk hold =>
      h (1 + k) ch ⟨by omega, by rw [hl, Nat.add_comm, List.getElem?_cons_succ, hk], hold⟩
    refine ⟨{ s with channels := s.channels.overwrite (chnl :: chnls.map (renewed now)) }, ?_, ?_⟩
    · rw [renewalLoop_eq_ok hin, hl]
      simp only [Emit.mk_ok_bind, Emit.pure_eq, List.append_nil, List.drop_succ_cons,
        List.drop_zero]
    · rintro i ch ⟨hpos, hget, hold⟩
      have hlive : (s.channels.overwrite (chnl :: chnls.map (renewed now))).live =
          chnl :: chnls.map (renewed now) :=
        Table.live_overwrite (by rw [hl, List.length_cons, List.length_cons, List.length_map])
      obtain ⟨k, rfl⟩ : ∃ k, i = k + 1 := ⟨i - 1, by omega⟩
      rw [hl, List.getElem?_cons_succ] at hget
      rw [hlive, List.getElem?_cons_succ, List.getElem?_map, hget, Option.map_some, renewed,
        if_pos hold]

theorem renewalPass_eq_error (ho : Overdue s now i chnl) (hne : s.neighbours ≠ [])
    (hle : s.neighbours.length ≤ i) : (renewalPass s now).result = .error .read := by
  obtain ⟨hpos, hget, hold⟩ := ho
  rw [renewalPass]
  split
  · next hl =>
    rw [hl] at hget
    cases hget
  · next ch chnls hl =>
    obtain ⟨k, rfl⟩ : ∃ k, i = k + 1 := ⟨i - 1, by omega⟩
    rw [hl, List.getElem?_cons_succ] at hget
    have herr := renewalLoop_eq_error (i := 1) hget hold hne (by omega)
    generalize renewalLoop s.neighbours now 1 chnls = r at herr
    obtain ⟨o, e | x⟩ := r
    · cases herr
      rfl
    · cases herr

end Pass

/-! ### What comes before it -/

section Before

variable {addrs : List Sockaddr} {s s₁ s₂ : ServerState} {a : Sockaddr} {c : Name}
  {received : Option (Sockaddr × Request × Id)} {rq : Request} {drawn : Id} {now : ℤ}

/-- The part in front of the label: a scan, then the request, if there is one. -/
theorem untilPass_cases (h : (untilPass s received now).result = .ok s₂) :
    ∃ s₁, (timeoutScan s now).result = .ok s₁ ∧
      ((received = none ∧ s₂ = s₁ ∧ (untilPass s received now).out = []) ∨
        ∃ a rq drawn, received = some (a, rq, drawn) ∧
          (handle s₁ a rq drawn now).result = .ok s₂ ∧
          (untilPass s received now).out = (handle s₁ a rq drawn now).out) := by
  rw [untilPass] at h ⊢
  obtain ⟨s₁, h₁, h⟩ := Emit.bind_eq_ok_iff.mp h
  refine ⟨s₁, h₁, ?_⟩
  rw [Emit.out_bind_of_ok h₁, timeoutScan_out, List.nil_append]
  rcases received with _ | ⟨a, rq, drawn⟩
  · cases h
    exact Or.inl ⟨rfl, rfl, rfl⟩
  · exact Or.inr ⟨a, rq, drawn, rfl, h, rfl⟩

theorem Reachable.untilPass (hs : Reachable addrs s)
    (h : (DuckChat.untilPass s received now).result = .ok s₂) :
    Reachable addrs s₂ ∧ s₂.neighbours = s.neighbours := by
  obtain ⟨s₁, h₁, ⟨-, rfl, -⟩ | ⟨a, rq, drawn, -, h₂, -⟩⟩ := untilPass_cases h
  · exact ⟨hs.step (.timeouts now) h₁, neighbours_of_react (i := .timeouts now) h₁⟩
  · have hr₁ : Reachable addrs s₁ := hs.step (.timeouts now) h₁
    have hn₁ : s₁.neighbours = s.neighbours := neighbours_of_react (i := .timeouts now) h₁
    exact ⟨hr₁.step (.datagram a rq drawn now) h₂,
      (neighbours_of_react (i := .datagram a rq drawn now) h₂).trans hn₁⟩

/-- An iteration that gets to the end of the `switch`: it jumps, or the pass follows. -/
theorem iteration_eq (h : (untilPass s received now).result = .ok s₂) :
    (iteration s received now).result =
        (if jumpsPass s received then .ok s₂ else (renewalPass s₂ now).result) ∧
      (iteration s received now).out = (untilPass s received now).out ++
        if jumpsPass s received then [] else (renewalPass s₂ now).out := by
  obtain ⟨s₁, h₁, hk⟩ := untilPass_cases h
  have hchannels : s₁.channels = s.channels := (timeoutScan_ok h₁).2.2.1
  have hit : ∀ f : ServerState → Act ServerState,
      (timeoutScan s now >>= f).result = (f s₁).result ∧
        (timeoutScan s now >>= f).out = (f s₁).out := by
    intro f
    rw [Emit.out_bind_of_ok h₁, timeoutScan_out]
    refine ⟨?_, rfl⟩
    generalize timeoutScan s now = x at h₁
    obtain ⟨o, r⟩ := x
    cases h₁
    rfl
  rw [iteration, (hit _).1, (hit _).2]
  rcases hk with ⟨rfl, rfl, ho⟩ | ⟨a, rq, drawn, rfl, h₂, ho⟩
  · rw [ho, jumpsPass]
    exact ⟨rfl, rfl⟩
  · have hskip : skipsRenewal s₁ rq = skipsRenewal s rq := by
      unfold skipsRenewal
      rw [hchannels]
    rw [ho, jumpsPass]
    simp only [hskip]
    generalize handle s₁ a rq drawn now = x at h₂
    obtain ⟨o, r⟩ := x
    cases h₂
    cases skipsRenewal s rq with
    | true => exact ⟨rfl, rfl⟩
    | false => exact ⟨rfl, rfl⟩

/-- A client's request that is no join of a channel makes no server announce it. -/
theorem joinsOf_client {rq : ClientRequest} (hrq : rq ≠ .join c) :
    joinsOf c (handle s a (.client rq) drawn now).out = [] := by
  refine List.filter_eq_nil_iff.mpr fun d hd hj => ?_
  obtain ⟨b, p⟩ := d
  cases of_decide_eq_true hj
  have hp : (⟨a, b, .join c⟩ : Packet) ∈ packets a (handle s a (.client rq) drawn now).out :=
    mem_packets.mpr ⟨rfl, hd⟩
  cases rq with
  | login u =>
    change _ ∈ packets a (reqLogin s a u).out at hp
    rw [reqLogin_out] at hp
    cases hp
  | logout =>
    change _ ∈ packets a (reqLogout s a).out at hp
    rw [reqLogout_out] at hp
    cases hp
  | join d =>
    change _ ∈ (reqJoin s a d now).out at hd
    rw [reqJoin_out] at hd
    obtain ⟨_, -, heq⟩ := List.mem_map.mp hd
    cases heq
    exact hrq rfl
  | leave d =>
    obtain ⟨_, -, heq⟩ := mem_packets_reqLeave hp
    cases heq
  | say d t =>
    change _ ∈ packets a (reqSay s a d t drawn).out at hp
    change _ ∈ (reqSay s a d t drawn).out at hd
    rcases reqSay_cases s a d t drawn with ⟨f, -, ho⟩ | ⟨chnl, _, _, -, -, -, -, -, ho⟩
    · rw [ho] at hp
      cases hp
    · rw [ho] at hd
      rcases List.mem_append.mp hd with hd | hd
      · obtain ⟨x, hx⟩ := sayLoop_out_text hd
        cases hx
      · obtain ⟨_, -, heq⟩ := List.mem_map.mp hd
        cases heq
  | list => cases List.mem_singleton.mp hd
  | who d =>
    change _ ∈ packets a (reqWho s a d).out at hp
    rw [packets_reqWho_out] at hp
    cases hp
  | other => cases hp

/-- A join of a server makes another announce only a channel that it has just created. -/
theorem joinsOf_s2s {m : S2S} {chnl : Channel} {i : ℕ} (hnd : s₂.names.Nodup)
    (h : (handle s a (.s2s m) drawn now).result = .ok s₂) (ho : Overdue s₂ now i chnl) :
    joinsOf chnl.chnlName (handle s a (.s2s m) drawn now).out = [] := by
  refine List.filter_eq_nil_iff.mpr fun d hd hj => ?_
  obtain ⟨b, p⟩ := d
  cases of_decide_eq_true hj
  have hp : (⟨a, b, .join chnl.chnlName⟩ : Packet) ∈
      packets a (react s (.datagram a (.s2s m) drawn now)).out := mem_packets.mpr ⟨rfl, hd⟩
  have hm := joinName_of_mem_packets hp rfl
  cases m with
  | leave c => cases hm
  | say x => cases hm
  | join c =>
    cases hm
    change (reqServJoin s a chnl.chnlName now).result = .ok s₂ at h
    change _ ∈ (reqServJoin s a chnl.chnlName now).out at hd
    rcases reqServJoin_cases s a chnl.chnlName now with
      ⟨f, -, hout⟩ | ⟨_, _, s₁, -, -, rfl, ⟨-, -, hout⟩ | ⟨-, chnls, hadd, hr, -⟩⟩
    · rw [hout] at hd
      cases hd
    · rw [hout] at hd
      cases hd
    · rw [hr] at h
      cases h
      have hlive : chnls.live = s.channels.live ++ [createChannel chnl.chnlName now] :=
        (addChnl_eq_ok_iff.mp hadd).2.2.1
      have hnew : createChannel chnl.chnlName now ∈ chnls.live := by
        rw [hlive]
        exact List.mem_append_right _ (List.mem_singleton_self _)
      have hsame : chnl = createChannel chnl.chnlName now :=
        List.inj_on_of_nodup_map hnd (List.mem_of_getElem? ho.get) hnew rfl
      have hold := ho.old
      have htm : chnl.tm = now := congrArg Channel.tm hsame
      rw [htm, Int.sub_self, MIN_1] at hold
      omega

/-- **Before the pass** no overdue channel is announced, unless a client asked for that. -/
theorem joinsOf_untilPass {chnl : Channel} {i : ℕ} (hs : Reachable addrs s)
    (h : (untilPass s received now).result = .ok s₂) (ho : Overdue s₂ now i chnl) :
    joinsOf chnl.chnlName (untilPass s received now).out =
      if announces chnl.chnlName received then joinEach s.neighbours chnl.chnlName else [] := by
  have hnd : s₂.names.Nodup := (hs.untilPass h).1.nodup_names
  obtain ⟨s₁, h₁, ⟨rfl, -, hout⟩ | ⟨a, rq, drawn, rfl, h₂, hout⟩⟩ := untilPass_cases h
  · rw [hout]
    rfl
  · have hn : s₁.neighbours = s.neighbours := neighbours_of_react (i := .timeouts now) h₁
    rw [hout]
    cases rq with
    | s2s m => exact joinsOf_s2s hnd h₂ ho
    | client rq =>
      by_cases hrq : rq = .join chnl.chnlName
      · subst hrq
        have hann : announces chnl.chnlName
            (some (a, .client (.join chnl.chnlName), drawn)) = true := beq_self_eq_true _
        rw [hann, if_pos rfl, joinEach, ← hn, ← reqJoin_out s₁ a chnl.chnlName now]
        refine List.filter_eq_self.mpr fun d hd => ?_
        change d ∈ (reqJoin s₁ a chnl.chnlName now).out at hd
        rw [reqJoin_out] at hd
        obtain ⟨b, -, rfl⟩ := List.mem_map.mp hd
        exact decide_eq_true rfl
      · have hann : announces chnl.chnlName (some (a, .client rq, drawn)) = false := by
          cases rq with
          | join d =>
            rw [announces, beq_eq_false_iff_ne]
            rintro rfl
            exact hrq rfl
          | _ => rfl
        rw [hann, joinsOf_client hrq]
        rfl

/-- An overdue channel is not renewed by an iteration that jumps. -/
theorem Overdue.jumpsPass_eq_false {chnl : Channel} {i : ℕ} (ho : Overdue s₂ now i chnl)
    (h : (untilPass s received now).result = .ok s₂) (hr : Renews s received now s₂) :
    jumpsPass s received = false := by
  obtain ⟨s', hres, hall⟩ := hr
  rw [← Bool.not_eq_true]
  intro hjump
  rw [(iteration_eq h).1, if_pos hjump] at hres
  cases hres
  have hsame := ho.get.symm.trans (hall i chnl ho).1
  rw [Option.some.injEq] at hsame
  have htm : chnl.tm = now := by rw [hsame]
  have hold := ho.old
  rw [htm, Int.sub_self, MIN_1] at hold
  omega

/-- The index of each overdue channel is that of a neighbour, if there are neighbours. -/
def PassInside (s₂ : ServerState) (now : ℤ) : Prop :=
  ∀ i chnl, Overdue s₂ now i chnl → s₂.neighbours = [] ∨ i < s₂.neighbours.length

theorem passInside_of_ok {s' : ServerState} (h : (renewalPass s₂ now).result = .ok s') :
    PassInside s₂ now := by
  intro i chnl ho
  by_contra hno
  rw [not_or, Nat.not_lt] at hno
  rw [renewalPass_eq_error ho hno.1 hno.2] at h
  cases h

/-- **The joins of an overdue channel** in an iteration whose pass is inside its tables: those that
its handler sent, and those of the pass. -/
theorem joinsOf_iteration {chnl : Channel} {i : ℕ} (hs : Reachable addrs s)
    (h : (untilPass s received now).result = .ok s₂) (hjump : jumpsPass s received = false)
    (hin : PassInside s₂ now) (ho : Overdue s₂ now i chnl) :
    joinsOf chnl.chnlName (iteration s received now).out =
      (if announces chnl.chnlName received then joinEach s.neighbours chnl.chnlName else []) ++
        joinEach s.neighbours chnl.chnlName := by
  obtain ⟨hr₂, hn₂⟩ := hs.untilPass h
  obtain ⟨s', hpass, -⟩ := renewalPass_eq_ok hin
  have hout := (iteration_eq h).2
  rw [hjump, if_neg Bool.false_ne_true, hpass] at hout
  rw [hout, joinsOf, List.filter_append, ← joinsOf, ← joinsOf, joinsOf_untilPass hs h ho,
    ho.joinsOf_pass hr₂.nodup_names, hn₂]

/-- The condition, on the state in which the `switch` is left. -/
theorem renews_iff_overdue (hs : Reachable addrs s)
    (h : (untilPass s received now).result = .ok s₂) :
    Renews s received now s₂ ↔ ∀ i chnl, Overdue s₂ now i chnl →
      jumpsPass s received = false ∧ (s.neighbours = [] ∨
        i < s.neighbours.length ∧ announces chnl.chnlName received = false) := by
  have hn₂ := (hs.untilPass h).2
  have hresult := (iteration_eq h).1
  constructor
  · intro hr i chnl ho
    have hjump := ho.jumpsPass_eq_false h hr
    refine ⟨hjump, ?_⟩
    by_cases hne : s.neighbours = []
    · exact Or.inl hne
    obtain ⟨s', hres, hall⟩ := hr
    rw [hjump, if_neg Bool.false_ne_true, hres] at hresult
    have hin : PassInside s₂ now := passInside_of_ok hresult.symm
    refine Or.inr ⟨hn₂ ▸ (hin i chnl ho).resolve_left (by rwa [hn₂]), ?_⟩
    have hjoins := (hall i chnl ho).2
    rw [joinsOf_iteration hs h hjump hin ho] at hjoins
    rw [← Bool.not_eq_true]
    intro hann
    rw [if_pos hann] at hjoins
    have hlen := congrArg List.length hjoins
    rw [List.length_append, joinEach, List.length_map] at hlen
    exact hne (List.length_eq_zero_iff.mp (by omega))
  · intro hk
    have hin : PassInside s₂ now := by
      intro i ch ho
      rw [hn₂]
      exact (hk i ch ho).2.imp_right And.left
    obtain ⟨s', hpass, hrenewed⟩ := renewalPass_eq_ok hin
    by_cases hjump : jumpsPass s received = true
    · -- nothing is overdue, or the pass would be reached
      rw [if_pos hjump] at hresult
      refine ⟨s₂, hresult, fun i chnl ho => ?_⟩
      rw [(hk i chnl ho).1] at hjump
      cases hjump
    · rw [if_neg hjump, hpass] at hresult
      refine ⟨s', hresult, fun i chnl ho => ⟨hrenewed i chnl ho, ?_⟩⟩
      rw [joinsOf_iteration hs h (Bool.not_eq_true _ ▸ hjump) hin ho]
      rcases (hk i chnl ho).2 with hnil | ⟨-, hann⟩
      · rw [hnil, joinEach, List.map_nil, List.append_nil, ite_self]
      · rw [hann, if_neg Bool.false_ne_true, List.nil_append]

/-! ### The channels that are left -/

/-- The name and the renewal time of a channel. -/
def Channel.stamp (chnl : Channel) : Name × ℤ := (chnl.chnlName, chnl.tm)

/-- The names and the renewal times after a table was changed to another: new channels have the time
of the clock. -/
def StampsKept (now : ℤ) (before after : List Channel) : Prop :=
  ∃ new, after.map Channel.stamp = before.map Channel.stamp ++ new ∧ ∀ x ∈ new, x.2 = now

theorem StampsKept.of_eq {before after : List Channel}
    (h : after.map Channel.stamp = before.map Channel.stamp) : StampsKept now before after :=
  ⟨[], by rw [h, List.append_nil], fun x hx => absurd hx List.not_mem_nil⟩

theorem stampsKept_addChnl {chnls : Table Channel MAX_USERS}
    (h : addChnl s.channels c now = .ok chnls) : StampsKept now s.channels.live chnls.live := by
  refine ⟨[(c, now)], ?_, fun x hx => ?_⟩
  · rw [(addChnl_eq_ok_iff.mp h).2.2.1, List.map_append]
    rfl
  · rw [List.mem_singleton.mp hx]

theorem stamps_storeChannel {chnls : Table Channel MAX_USERS} {chnl chnl' : Channel}
    (hf : findChannel chnls c = some chnl) (h : chnl.stamp = chnl'.stamp) :
    (storeChannel chnls c chnl').live.map Channel.stamp = chnls.live.map Channel.stamp := by
  rw [live_storeChannel]
  exact map_replaceFirst_of_find? hf h

theorem stamps_eraseP (chnls : List Channel) :
    (chnls.eraseP (chnlCmp c)).map Channel.stamp =
      (chnls.map Channel.stamp).eraseP fun x => x.1 == c := by
  rw [List.eraseP_map]
  rfl

theorem stamp_addUser {chnl chnl' : Channel} {e : Option User} (h : addUser chnl e = .ok chnl') :
    chnl'.stamp = chnl.stamp := by
  obtain ⟨-, -, -, -, hn, ht⟩ := addUser_eq_ok_iff.mp h
  rw [Channel.stamp, Channel.stamp, hn, ht]

theorem stampsKept_reqLogin {u : Username} (h : (reqLogin s a u).result = .ok s₂) :
    StampsKept now s.channels.live s₂.channels.live := by
  obtain ⟨users, -, ⟨hnil, rfl⟩ | ⟨chnl, chnls, mid, hl, hadd, -, rfl⟩⟩ := reqLogin_eq_ok_iff.mp h
  · exact .of_eq rfl
  · refine .of_eq ?_
    rw [Table.live_overwrite (by rw [hl]; rfl), hl, List.map_cons, List.map_cons,
      ← stamp_addUser hadd]
    rfl

theorem stampsKept_reqLogout (h : (reqLogout s a).result = .ok s₂) :
    StampsKept now s.channels.live s₂.channels.live := by
  obtain ⟨usr, -, -, rfl⟩ := reqLogout_eq_ok_iff.mp h
  refine .of_eq ?_
  rw [channels_loggedOut, List.map_map]
  rfl

theorem stampsKept_reqJoin (h : (reqJoin s a c now).result = .ok s₂) :
    StampsKept now s.channels.live s₂.channels.live := by
  obtain ⟨-, -, -, -, chnls, chnl, chnl', hk, hadd, hc⟩ := reqJoin_ok h
  have hst : chnl.stamp = chnl'.stamp := (stamp_addUser hadd).symm
  rw [hc]
  rcases hk with ⟨hf, rfl⟩ | ⟨hf, rfl, hnew⟩
  · exact .of_eq (stamps_storeChannel hf hst)
  · obtain ⟨new, heq, hnow⟩ := stampsKept_addChnl hnew
    refine ⟨new, ?_, hnow⟩
    rw [stamps_storeChannel (findChannel_addChnl_self hnew (findChannel_eq_none_iff.mp hf)) hst,
      heq]

theorem stampsKept_reqLeave (h : (reqLeave s a c).result = .ok s₂) :
    StampsKept now (channelsLeft s (some (a, .client (.leave c), drawn))) s₂.channels.live := by
  cases hf : findChannel s.channels c with
  | none =>
    have he : (reqLeave s a c).result = .ok s := by rw [reqLeave, hf]; rfl
    cases he.symm.trans h
    rw [channelsLeft, hf, if_neg (by simp)]
    exact .of_eq rfl
  | some chnl =>
    obtain ⟨-, u, -, rfl⟩ := (reqLeave_eq_ok_iff hf).mp h
    have hst : (storeChannel s.channels c (chnl.expel u)).live.map Channel.stamp = _ :=
      stamps_storeChannel hf rfl
    refine .of_eq ?_
    rw [ServerState.afterLeave, channelsLeft, hf, Option.any_some]
    by_cases h1 : chnl.numUsers = 1
    · have hmem : c ∈ chnlNames (storeChannel s.channels c (chnl.expel u)) := by
        have hn : (chnl.expel u).chnlName = c := (findChannel_some hf).2
        rw [chnlNames_storeChannel hn]
        exact mem_chnlNames_of_find hf
      obtain ⟨x, hx, hn⟩ := List.mem_map.mp hmem
      have hlive := Table.live_remove_of_mem (p := chnlCmp c) hx (beq_iff_eq.mpr hn)
      rw [if_pos h1, if_pos (decide_eq_true h1), stamps_eraseP, ← hst, ← stamps_eraseP]
      exact congrArg _ hlive
    · rw [if_neg h1, if_neg (by simpa using h1)]
      exact hst

/-- **What is left of the table of channels** when the `switch` is. -/
theorem stampsKept_handle (h : (handle s a rq drawn now).result = .ok s₂) :
    StampsKept now (channelsLeft s (some (a, rq, drawn))) s₂.channels.live := by
  have hout : Outcome s (.datagram a rq drawn now) s₂ := outcome_of_react h
  have hquiet : Input.isQuiet (.datagram a rq drawn now) = true →
      channelsLeft s (some (a, rq, drawn)) = s.channels.live := by
    intro hq
    rcases rq with rq | m
    · cases rq with
      | leave c => cases hq
      | _ => rfl
    · rfl
  cases hout with
  | login h => exact stampsKept_reqLogin h
  | logout h => exact stampsKept_reqLogout h
  | join h => exact stampsKept_reqJoin h
  | leave h => exact stampsKept_reqLeave h
  | servJoin h =>
    obtain ⟨_, _, chnls, -, -, ⟨-, rfl⟩ | ⟨-, hadd⟩, rfl⟩ := reqServJoin_ok h
    · exact .of_eq rfl
    · exact stampsKept_addChnl hadd
  | servLeave h => exact .of_eq (congrArg _ (congrArg _ (reqServLeave_ok h).1))
  | recorded hq => exact .of_eq (congrArg _ (hquiet hq).symm)
  | idle hq => exact .of_eq (congrArg _ (hquiet hq).symm)

theorem stampsKept_untilPass (h : (untilPass s received now).result = .ok s₂) :
    StampsKept now (channelsLeft s received) s₂.channels.live := by
  obtain ⟨s₁, h₁, ⟨rfl, rfl, -⟩ | ⟨a, rq, drawn, rfl, h₂, -⟩⟩ := untilPass_cases h
  · exact .of_eq (congrArg _ (congrArg _ (timeoutScan_ok h₁).2.2.1))
  · have hleft : channelsLeft s₁ (some (a, rq, drawn)) = channelsLeft s (some (a, rq, drawn)) := by
      unfold channelsLeft
      rw [(timeoutScan_ok h₁).2.2.1]
    rw [← hleft]
    exact stampsKept_handle h₂

/-- The old channels are the same before and after. -/
theorem StampsKept.exists_iff {before after : List Channel} {i : ℕ} {x : Name × ℤ}
    (h : StampsKept now before after) (hold : now - x.2 > MIN_1) :
    (∃ chnl, before[i]? = some chnl ∧ chnl.stamp = x) ↔
      ∃ chnl, after[i]? = some chnl ∧ chnl.stamp = x := by
  obtain ⟨new, heq, hnew⟩ := h
  have hget : ∀ chnls : List Channel, (∃ chnl, chnls[i]? = some chnl ∧ chnl.stamp = x) ↔
      (chnls.map Channel.stamp)[i]? = some x := by
    intro chnls
    rw [List.getElem?_map, Option.map_eq_some_iff]
  rw [hget, hget, heq]
  by_cases hlt : i < (before.map Channel.stamp).length
  · rw [List.getElem?_append_left hlt]
  · have hge := Nat.not_lt.mp hlt
    rw [List.getElem?_eq_none hge, List.getElem?_append_right hge]
    refine iff_of_false (Option.some_ne_none x).symm fun hx => ?_
    have hnow := hnew x (List.mem_of_getElem? hx)
    rw [hnow, Int.sub_self, MIN_1] at hold
    omega

/-- What is said of the names of old channels is said of stamps. -/
theorem forall_old_iff (chnls : List Channel) (P : ℕ → Name → Prop) :
    (∀ i chnl, 1 ≤ i → chnls[i]? = some chnl → now - chnl.tm > MIN_1 → P i chnl.chnlName) ↔
      ∀ i x, 1 ≤ i → now - x.2 > MIN_1 → (∃ chnl, chnls[i]? = some chnl ∧ chnl.stamp = x) →
        P i x.1 := by
  constructor
  · rintro h i _ hi hold ⟨chnl, hget, rfl⟩
    exact h i chnl hi hget hold
  · intro h i chnl hi hget hold
    exact h i chnl.stamp hi hold ⟨chnl, hget, rfl⟩

theorem StampsKept.forall_iff {before after : List Channel} (P : ℕ → Name → Prop)
    (h : StampsKept now before after) :
    (∀ i chnl, 1 ≤ i → before[i]? = some chnl → now - chnl.tm > MIN_1 → P i chnl.chnlName) ↔
      ∀ i chnl, 1 ≤ i → after[i]? = some chnl → now - chnl.tm > MIN_1 → P i chnl.chnlName := by
  rw [forall_old_iff, forall_old_iff]
  refine forall₄_congr fun i x hi hold => ?_
  rw [h.exists_iff hold]

/-- **When an iteration renews every overdue channel.** -/
theorem renews_iff (hs : Reachable addrs s) (h : (untilPass s received now).result = .ok s₂) :
    Renews s received now s₂ ↔ PassReaches s received now := by
  rw [renews_iff_overdue hs h, PassReaches, (stampsKept_untilPass h).forall_iff fun i c =>
    jumpsPass s received = false ∧
      (s.neighbours = [] ∨ i < s.neighbours.length ∧ announces c received = false)]
  exact ⟨fun hk i chnl hi hget hold => hk i chnl ⟨hi, hget, hold⟩,
    fun hk i chnl ho => hk i chnl ho.pos ho.get ho.old⟩

end Before

namespace Three

/-- The middle of the line after server 0 has joined x at time 0. -/
def relaying : ServerState :=
  { ServerState.start (line.nbrAddrs 1) 0 0 with
    cnnctSrvrs := [
      ⟨addr 0, Table.ofList [common, chnlX] (by decide), Table.ofList [0, 0] (by decide), rfl⟩,
      startServer (addr 2) 0]
    channels := Table.ofList [createChannel common 0, createChannel chnlX 0] (by decide) }

theorem reachable_relaying : Reachable (line.nbrAddrs 1) relaying :=
  (Reachable.start 0 0).step (.datagram (addr 0) (.s2s (.join chnlX)) 0 0) (by rfl)

/-- After 100 seconds x is overdue. -/
theorem overdue_relaying : Overdue relaying 100 1 (createChannel chnlX 0) :=
  ⟨by decide, rfl, by decide⟩

/-- The only channel behind the first. -/
theorem overdue_relaying_eq {i : ℕ} {chnl : Channel} (ho : Overdue relaying 100 i chnl) :
    i = 1 ∧ chnl = createChannel chnlX 0 := by
  obtain ⟨hpos, hget, -⟩ := ho
  rcases i with _ | _ | i
  · omega
  · cases hget
    exact ⟨rfl, rfl⟩
  · cases hget

end Three

open Three in
theorem renews_relaying :
    (untilPass relaying none 100).result = .ok relaying ∧ Renews relaying none 100 relaying :=
  ⟨by rfl, (renews_iff reachable_relaying (by rfl)).mpr fun i chnl hi hget hold => by
    obtain ⟨rfl, rfl⟩ := overdue_relaying_eq ⟨hi, hget, hold⟩
    exact ⟨rfl, Or.inr ⟨by decide, rfl⟩⟩⟩

/-- A client asks who is in a channel that does not exist, and x is not renewed. -/
theorem not_renews_relaying :
    Reachable (Three.line.nbrAddrs 1) Three.relaying ∧
      ∃ received s₂, (untilPass Three.relaying received 100).result = .ok s₂ ∧
        ¬ Renews Three.relaying received 100 s₂ := by
  refine ⟨Three.reachable_relaying,
    some (Three.client 1, .client (.who ⟨ascii "y", by decide, by decide⟩), 0),
    Three.relaying, by rfl, ?_⟩
  rintro ⟨s', hr, hall⟩
  have hsame : s' = Three.relaying := by
    have heq : (iteration Three.relaying
        (some (Three.client 1, .client (.who ⟨ascii "y", by decide, by decide⟩), 0)) 100).result =
          .ok Three.relaying := by rfl
    rw [heq] at hr
    cases hr
    rfl
  have hget := (hall 1 _ Three.overdue_relaying).1
  rw [hsame] at hget
  have htm := congrArg (Option.map Channel.tm) hget
  exact absurd htm (by decide)

end DuckChat
