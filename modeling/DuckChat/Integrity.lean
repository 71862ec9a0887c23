import DuckChat.Bystanders

/-!
# Rosters over whole runs

Two things that the handlers take for granted: that an entry of a roster points to a user who is
logged in, and that a user has at most one entry in it. Nothing checks either. `REQ_JOIN` appends
whatever `find_user` returns to whatever is there; `REQ_LOGOUT` frees a user after one removal by
name in each channel. Here both properties are kept over every run whose inputs stay clear of
these, and each condition is exact: an input outside it breaks the property at once.

With both, a say reaches each member once and a leave ends that, without any proviso on how the
handlers end: there is nothing in the roster that they could stop at.

## Main definitions

* `Referential`, `Careful` — the entries are users who are logged in
* `Single`, `Orderly` — no address has two entries
* `Regular` — both conditions
* `saysTo` — the texts of says among the datagrams to an address

## Main results

* `referential_iff_careful`, `rosters_referential`
* `single_iff_orderly`, `says_once_iff`, `leave_ends_iff`, `rosters_single`
-/

set_option autoImplicit false

namespace DuckChat

/-! ### Entries of users who are logged in -/

/-- Every entry of every channel points to a user in the table of users. -/
def Referential (s : ServerState) : Prop :=
  ∀ chnl ∈ s.channels.live, ∀ e ∈ chnl.entries, Readable s.heap e

/-- A join comes from an address that is logged in. A logout comes from a user who has at most one
entry in each channel and is the first there under its name. -/
def Careful (s : ServerState) : Input → Prop
  | .datagram a (.client (.join _)) _ _ => (findUser s.allUsers a).isSome
  | .datagram a (.client .logout) _ _ =>
      ∀ usr ∈ findUser s.allUsers a, ∀ chnl ∈ s.channels.live,
        chnl.entries.count (some usr) = 0 ∨
          chnl.entries.count (some usr) = 1 ∧
            chnl.entries.find? (isNamed usr.username) = some (some usr)
  | _ => True

instance decidableCareful (s : ServerState) : ∀ i, Decidable (Careful s i)
  | .datagram a (.client (.join _)) _ _ =>
      inferInstanceAs (Decidable ((findUser s.allUsers a).isSome = true))
  | .datagram a (.client .logout) _ _ =>
      inferInstanceAs (Decidable (∀ usr ∈ findUser s.allUsers a, ∀ chnl ∈ s.channels.live,
        chnl.entries.count (some usr) = 0 ∨
          chnl.entries.count (some usr) = 1 ∧
            chnl.entries.find? (isNamed usr.username) = some (some usr)))
  | .datagram _ (.client (.login _)) _ _ => .isTrue trivial
  | .datagram _ (.client (.leave _)) _ _ => .isTrue trivial
  | .datagram _ (.client (.say _ _)) _ _ => .isTrue trivial
  | .datagram _ (.client .list) _ _ => .isTrue trivial
  | .datagram _ (.client (.who _)) _ _ => .isTrue trivial
  | .datagram _ (.client (.other _)) _ _ => .isTrue trivial
  | .datagram _ (.s2s _) _ _ => .isTrue trivial
  | .timeouts _ => .isTrue trivial
  | .renewal _ => .isTrue trivial

section Referential

variable {s s' : ServerState} {i : Input} {a : Sockaddr} {usr : User} {es : List (Option User)}

theorem careful_of_isQuiet (h : i.isQuiet = true) : Careful s i := by
  rcases i with ⟨a, (rq | m), drawn, now⟩ | now | now
  · cases rq <;> first | exact trivial | cases h
  all_goals exact trivial

/-- A removal by a user's name takes the user out of a roster, if it has no other entry there and
nobody of its name is in front of it. -/
theorem not_mem_without_iff :
    some usr ∉ without usr.username es ↔
      es.count (some usr) = 0 ∨
        es.count (some usr) = 1 ∧ es.find? (isNamed usr.username) = some (some usr) := by
  by_cases hes : es = []
  · simp [hes]
  · obtain ⟨g, hg⟩ := exists_goes usr.username hes
    obtain ⟨l₁, l₂, hl, hw⟩ := exists_without hg
    have hcount : es.count (some usr) =
        (without usr.username es).count (some usr) + if g = some usr then 1 else 0 := by
      rw [hw, hl, List.count_append, List.count_cons, List.count_append]
      simp only [beq_iff_eq]
      omega
    rw [← List.count_eq_zero, hcount]
    by_cases hgu : g = some usr
    · have hfind : es.find? (isNamed usr.username) = some (some usr) := by
        rw [hgu] at hg hl
        have hmem : some usr ∈ es := by rw [hl]; simp
        rw [goes] at hg
        cases hf : es.find? (isNamed usr.username) with
        | some x => rw [hf, Option.some_or] at hg; exact hg
        | none => exact absurd (isNamed_some.mpr rfl) (List.find?_eq_none.mp hf _ hmem)
      rw [if_pos hgu]
      constructor
      · intro h0
        exact Or.inr ⟨by omega, hfind⟩
      · rintro (h0 | ⟨h1, -⟩)
        · omega
        · omega
    · rw [if_neg hgu, Nat.add_zero]
      refine ⟨Or.inl, ?_⟩
      rintro (h0 | ⟨-, hf⟩)
      · exact h0
      · rw [goes, hf, Option.some_or] at hg
        exact absurd (Option.some.inj hg).symm hgu

/-- **Careful inputs keep the entries referential.** -/
theorem Referential.step (hr : Referential s) (hc : Careful s i)
    (hst : (react s i).result = .ok s') : Referential s' := by
  intro chnl hch e he
  have hroster := rosters_of_react hst chnl hch
  have husers := users_of_react hst
  generalize chnl.chnlName = n at hroster
  generalize chnl.entries = es at hroster he
  generalize s'.heap = heap' at husers ⊢
  generalize s'.heapNext = next' at husers
  -- users stay where they are, unless one logs out
  have hmono : i.isLogout = false → ∀ v ∈ s.heap, v ∈ heap' := by
    intro hi v hv
    cases husers with
    | kept => exact hv
    | loggedIn => exact List.mem_append_left _ hv
    | loggedOut => cases hi
  have hlift : i.isLogout = false → ∀ x, Readable s.heap x → Readable heap' x := by
    rintro hi x ⟨v, hv, rfl⟩
    exact ⟨v, hmono hi v hv, rfl⟩
  cases hroster with
  | kept hk hi => exact hlift hi e (hr _ hk e he)
  | created => exact absurd he List.not_mem_nil
  | joined =>
    rcases List.mem_append.mp he with he | he
    · rw [ServerState.usersOf] at he
      split at he
      · next ch hf => exact hlift rfl e (hr ch (findChannel_some hf).1 e he)
      · exact absurd he List.not_mem_nil
    · obtain ⟨v, hv⟩ := Option.isSome_iff_exists.mp hc
      rw [List.mem_singleton.mp he, hv]
      exact ⟨v, hmono rfl v (mem_heap_of_findUser hv).1, rfl⟩
  | left hf => exact hlift rfl e (hr _ (findChannel_some hf).1 e (without_sublist.subset he))
  | @loggedOut a _ _ ch usr hk hu =>
    obtain ⟨v, hv, rfl⟩ := hr ch hk e (without_sublist.subset he)
    have hne : v ≠ usr := by
      rintro rfl
      exact not_mem_without_iff.mpr (hc v hu ch hk) he
    cases husers with
    | kept hi => cases hi
    | loggedOut =>
      refine ⟨v, ?_, rfl⟩
      obtain ⟨l₁, l₂, hl, he⟩ := exists_eraseP_heap hu
      rw [he]
      rw [hl] at hv
      simpa [hne] using hv
  | loggedIn hk =>
    cases husers with
    | kept hi => cases hi
    | loggedIn =>
      rcases List.mem_append.mp (without_sublist.subset he) with he | he
      · exact hlift rfl e (hr _ (List.mem_of_mem_head? hk) e he)
      · rw [List.mem_singleton.mp he]
        exact ⟨_, List.mem_append_right _ (List.mem_singleton_self _), rfl⟩

/-- **Careful inputs are the only ones that do.** -/
theorem referential_iff_careful {addrs : List Sockaddr} (hs : Reachable addrs s)
    (hr : Referential s) (hst : (react s i).result = .ok s') : Referential s' ↔ Careful s i := by
  refine ⟨fun hr' => ?_, fun hc => hr.step hc hst⟩
  cases outcome_of_react hst with
  | @join _ a c _ now h =>
    rw [Careful]
    have hmem : findUser s.allUsers a ∈ s'.usersOf c := by
      rw [usersOf_reqJoin h, if_pos rfl]
      exact List.mem_append_right _ (List.mem_singleton_self _)
    rw [ServerState.usersOf] at hmem
    split at hmem
    · next chnl hf =>
      obtain ⟨v, -, hv⟩ := hr' chnl (findChannel_some hf).1 _ hmem
      rw [hv]
      rfl
    · exact absurd hmem List.not_mem_nil
  | @logout _ a _ _ h =>
    obtain ⟨usr, hu, -, rfl⟩ := reqLogout_eq_ok_iff.mp h
    intro v hv chnl hch
    rw [hu] at hv
    obtain rfl : usr = v := Option.some.inj hv
    refine not_mem_without_iff.mp fun hmem => ?_
    have hread := hr' (chnl.expel usr.username)
      (by rw [channels_loggedOut]; exact List.mem_map_of_mem hch) (some usr)
      (by rw [entries_expel]; exact hmem)
    obtain ⟨w, hw, hwu⟩ := hread
    obtain rfl : usr = w := Option.some.inj hwu
    -- its block has been freed
    obtain ⟨l₁, l₂, hl, he⟩ := exists_eraseP_heap hu
    rw [ServerState.heap, allUsers_loggedOut hu] at hw
    have hnd := hs.nodup_heap
    rw [hl] at hnd
    exact (List.nodup_cons.mp (List.nodup_middle.mp hnd)).1 (by rwa [← he])
  | login => exact trivial
  | leave => exact trivial
  | servJoin => exact trivial
  | servLeave => exact trivial
  | timeouts => exact trivial
  | renewal => exact trivial
  | recorded hq => exact careful_of_isQuiet hq
  | idle hq => exact careful_of_isQuiet hq

end Referential

theorem referential_start (addrs : List Sockaddr) (unset now : ℤ) :
    Referential (ServerState.start addrs unset now) := by
  intro chnl hch e he
  rw [List.mem_singleton.mp hch] at he
  exact absurd he List.not_mem_nil

theorem Referential.of_run {s t : ServerState} {is : List Input} (hr : Referential s)
    (h : Run ServerState.next Careful s is t) : Referential t :=
  h.invariant (fun _ _ _ hr hc hst => hr.step hc (next_eq_some_iff.mp hst)) hr

/-- **Referential integrity.** In every run of inputs that are careful where they are taken, every
entry of every channel is a user in the table of users, in every state reached. -/
theorem rosters_referential (addrs : List Sockaddr) (unset now : ℤ) (is : List Input)
    (s : ServerState) (h : Run ServerState.next Careful (ServerState.start addrs unset now) is s) :
    Referential s :=
  (referential_start addrs unset now).of_run h

namespace Three

/-- A user logs in, joins two channels, leaves one and logs out. -/
def session : List Input :=
  [enter 0, ask 0 (.join common), ask 0 (.join chnlX), ask 0 (.leave chnlX), ask 0 .logout]

/-- Three users in two channels; one speaks, one leaves, and one who is in both logs out. -/
def gathering : List Input :=
  [enter 0, ask 0 (.join common), enter 1, ask 1 (.join chnlX), ask 1 (.join common), enter 2,
    ask 2 (.join common), ask 2 (.join chnlX), ask 1 (.say common hello), ask 0 (.leave common),
    ask 2 .logout, ask 0 (.join chnlX)]

end Three

open Three in
theorem rosters_referential_on_gathering :
    ∃ s, Run ServerState.next Careful alone gathering s ∧ Referential s ∧
      (s.usersOf common).length = 1 ∧ (s.usersOf chnlX).length = 2 := by
  have h : (execute ServerState.next Careful alone gathering).any (fun s =>
      (s.usersOf common).length = 1 ∧ (s.usersOf chnlX).length = 2) = true := by
    decide
  obtain ⟨s, hr, hlen⟩ := exists_run_of_execute h
  exact ⟨s, hr, rosters_referential [] 0 0 gathering s hr, of_decide_eq_true hlen⟩

/-- The input is a request of a client. -/
def Input.isClient : Input → Bool
  | .datagram _ (.client _) _ _ => true
  | _ => false

open Three in
/-- A user who has joined Common twice logs out: the second entry points to a block that was freed.
And an address that is not logged in joins: its entry is `NULL`. -/
theorem entries_outlive_users :
    (¬ ∀ (addrs : List Sockaddr) (unset now : ℤ) (is : List Input) (s : ServerState),
        (∀ i ∈ is, i.isClient) →
        Run ServerState.next (fun _ _ => True) (ServerState.start addrs unset now) is s →
        Referential s) ∧
      ∃ s, Run ServerState.next (fun _ _ => True) alone [ask 0 (.join common)] s ∧
        ¬ Referential s := by
  constructor
  · intro h
    have hex : (execute ServerState.next (fun _ _ => True) alone
        [enter 0, ask 0 (.join common), ask 0 (.join common), ask 0 .logout]).any
          (fun s => ∃ chnl ∈ s.channels.live, ∃ e ∈ chnl.entries, ¬ Readable s.heap e) = true := by
      decide
    obtain ⟨s, hr, hs⟩ := exists_run_of_execute hex
    obtain ⟨chnl, hch, e, he, hne⟩ := of_decide_eq_true hs
    exact hne (h [] 0 0 _ s (by decide) hr chnl hch e he)
  · have hex : (execute ServerState.next (fun _ _ => True) alone [ask 0 (.join common)]).any
        (fun s => ∃ chnl ∈ s.channels.live, ∃ e ∈ chnl.entries, ¬ Readable s.heap e) = true := by
      decide
    obtain ⟨s, hr, hs⟩ := exists_run_of_execute hex
    obtain ⟨chnl, hch, e, he, hne⟩ := of_decide_eq_true hs
    exact ⟨s, hr, fun href => hne (href chnl hch e he)⟩

/-! ### One entry for each address -/

/-- No address has two entries in a channel. -/
def Single (s : ServerState) : Prop :=
  ∀ chnl ∈ s.channels.live, ∀ a, chnl.entries.countP (isAt a) ≤ 1

/-- A join comes from a user who has no entry in the channel. A login is made under a name that the
first channel has no entry for, or at an address that it has no other entry for. A leave by a user
who has an entry takes out that entry. A say to a channel with users comes from one of them. -/
def Orderly (s : ServerState) : Input → Prop
  | .datagram a (.client (.join c)) _ _ =>
      (findUser s.allUsers a).isSome → ∀ e ∈ s.usersOf c, isAt a e = false
  | .datagram a (.client (.login u)) _ _ =>
      ∀ chnl ∈ s.channels.live.head?, chnl.entries.any (isNamed u) = true →
        ∀ e ∈ chnl.entries.eraseP (isNamed u), isAt a e = false
  | .datagram a (.client (.leave c)) _ _ =>
      (∃ e ∈ s.usersOf c, isAt a e = true) → ∀ usr ∈ findUser s.allUsers a,
        ∃ e ∈ goes usr.username (s.usersOf c), isAt a e = true
  | .datagram a (.client (.say c _)) _ _ =>
      s.usersOf c ≠ [] → ∃ e ∈ s.usersOf c, isAt a e = true
  | _ => True

instance decidableOrderly (s : ServerState) : ∀ i, Decidable (Orderly s i)
  | .datagram a (.client (.join c)) _ _ =>
      inferInstanceAs (Decidable ((findUser s.allUsers a).isSome = true →
        ∀ e ∈ s.usersOf c, isAt a e = false))
  | .datagram a (.client (.login u)) _ _ =>
      inferInstanceAs (Decidable (∀ chnl ∈ s.channels.live.head?,
        chnl.entries.any (isNamed u) = true →
          ∀ e ∈ chnl.entries.eraseP (isNamed u), isAt a e = false))
  | .datagram a (.client (.leave c)) _ _ =>
      inferInstanceAs (Decidable ((∃ e ∈ s.usersOf c, isAt a e = true) →
        ∀ usr ∈ findUser s.allUsers a,
          ∃ e ∈ goes usr.username (s.usersOf c), isAt a e = true))
  | .datagram a (.client (.say c _)) _ _ =>
      inferInstanceAs (Decidable (s.usersOf c ≠ [] → ∃ e ∈ s.usersOf c, isAt a e = true))
  | .datagram _ (.client .logout) _ _ => .isTrue trivial
  | .datagram _ (.client .list) _ _ => .isTrue trivial
  | .datagram _ (.client (.who _)) _ _ => .isTrue trivial
  | .datagram _ (.client (.other _)) _ _ => .isTrue trivial
  | .datagram _ (.s2s _) _ _ => .isTrue trivial
  | .timeouts _ => .isTrue trivial
  | .renewal _ => .isTrue trivial

/-- An input that is careful and orderly. -/
def Regular (s : ServerState) (i : Input) : Prop := Careful s i ∧ Orderly s i

instance decidableRegular (s : ServerState) (i : Input) : Decidable (Regular s i) :=
  inferInstanceAs (Decidable (Careful s i ∧ Orderly s i))

/-- A text of a say. -/
def Payload.isSay : Payload → Bool
  | .text (.say _ _ _) => true
  | _ => false

/-- The number of `TXT_SAY` datagrams to an address. -/
def saysTo (a : Sockaddr) (xs : List Datagram) : ℕ :=
  xs.countP fun d => addrCmp d.dest a && d.payload.isSay

section Single

variable {s s' : ServerState} {i : Input} {a b : Sockaddr} {c : Name} {u : Username} {v : User}
  {es : List (Option User)} {t : SayText} {drawn : Id}

theorem countP_usersOf_le (hs : Single s) (c : Name) (a : Sockaddr) :
    (s.usersOf c).countP (isAt a) ≤ 1 := by
  rw [ServerState.usersOf]
  split
  · next chnl hf => exact hs chnl (findChannel_some hf).1 a
  · exact Nat.zero_le 1

/-- One more entry at an address that has none. -/
theorem countP_concat_le (h : ∀ b, es.countP (isAt b) ≤ 1)
    (hv : ∀ e ∈ es, isAt v.address e = false) (b : Sockaddr) :
    (es ++ [some v]).countP (isAt b) ≤ 1 := by
  rw [List.countP_append, List.countP_singleton]
  split
  · next hb =>
    have hzero : es.countP (isAt b) = 0 := by
      rw [List.countP_eq_zero]
      intro e he
      rw [← isAt_some.mp hb, hv e he]
      exact Bool.false_ne_true
    omega
  · exact h b

/-- **Orderly inputs keep the entries single.** -/
theorem Single.step (hs : Single s) (ho : Orderly s i) (hst : (react s i).result = .ok s') :
    Single s' := by
  intro chnl hch b
  have hroster := rosters_of_react hst chnl hch
  generalize chnl.chnlName = n at hroster
  generalize chnl.entries = es at hroster ⊢
  have hsub : ∀ {xs : List (Option User)} {u : Username}, (∀ x, xs.countP (isAt x) ≤ 1) →
      ∀ x, (without u xs).countP (isAt x) ≤ 1 :=
    fun hxs x => Nat.le_trans (without_sublist.countP_le) (hxs x)
  cases hroster with
  | kept hk => exact hs _ hk b
  | created => exact Nat.zero_le 1
  | @joined a =>
    cases hu : findUser s.allUsers a with
    | none =>
      rw [List.countP_append]
      exact countP_usersOf_le hs _ b
    | some v =>
      refine countP_concat_le (countP_usersOf_le hs _) ?_ b
      rw [(mem_heap_of_findUser hu).2]
      exact ho (by rw [hu]; rfl)
  | left hf => exact hsub (hs _ (findChannel_some hf).1) b
  | loggedOut hk => exact hsub (hs _ hk) b
  | @loggedIn a u _ _ chnl hk =>
    have hchnl := hs chnl (List.mem_of_mem_head? hk)
    by_cases hany : chnl.entries.any (isNamed u) = true
    · rw [without_concat_of_any hany]
      exact countP_concat_le (fun x => Nat.le_trans List.eraseP_sublist.countP_le (hchnl x))
        (ho chnl hk hany) b
    · have hno : ∀ e ∈ chnl.entries, isNamed u e = false := fun e he => by
        rw [← Bool.not_eq_true]
        exact fun hp => hany (List.any_eq_true.mpr ⟨e, he, hp⟩)
      rw [without_concat (v := ⟨s.heapNext, u, a⟩) hno rfl]
      exact hchnl b

/-- Two entries at an address are too many. -/
theorem all_isAt_of_countP_concat_le (h : (es ++ [some v]).countP (isAt v.address) ≤ 1) :
    ∀ e ∈ es, isAt v.address e = false := by
  have hone : [some v].countP (isAt v.address) = 1 := by simp
  rw [List.countP_append, hone] at h
  have hzero : es.countP (isAt v.address) = 0 := by omega
  intro e he
  rw [← Bool.not_eq_true]
  exact List.countP_eq_zero.mp hzero e he

/-- **Orderly inputs are the only ones that do**, leaves and says apart: they break nothing here. -/
theorem single_iff_orderly (hs : Single s) (hst : (react s i).result = .ok s')
    (hleave : ∀ a c drawn now, i ≠ .datagram a (.client (.leave c)) drawn now)
    (hsay : ∀ a c t drawn now, i ≠ .datagram a (.client (.say c t)) drawn now) :
    Single s' ↔ Orderly s i := by
  refine ⟨fun hs' => ?_, fun ho => hs.step ho hst⟩
  have hquiet : i.isQuiet = true → Orderly s i := by
    intro hq
    rcases i with ⟨a, (rq | m), drawn, now⟩ | now | now
    · cases rq with
      | say c t => exact absurd rfl (hsay a c t drawn now)
      | _ => first | exact trivial | cases hq
    all_goals exact trivial
  cases outcome_of_react hst with
  | @join _ a c _ now h =>
    intro hsome
    obtain ⟨v, hv⟩ := Option.isSome_iff_exists.mp hsome
    have hle := countP_usersOf_le hs' c v.address
    rw [usersOf_reqJoin h, if_pos rfl, hv] at hle
    rw [← (mem_heap_of_findUser hv).2]
    exact all_isAt_of_countP_concat_le hle
  | @login _ a u _ _ h =>
    intro chnl hch hany
    obtain ⟨users, -, ⟨hl, -⟩ | ⟨first, chnls, mid, hl, hm, -, rfl⟩⟩ := reqLogin_eq_ok_iff.mp h
    · rw [hl] at hch
      cases hch
    · rw [hl] at hch
      obtain rfl : first = chnl := Option.some.inj hch
      have hle := hs' (mid.expel u)
        (by rw [Table.live_overwrite (by rw [hl]; rfl)]; exact List.mem_cons_self) a
      rw [entries_expel, (addUser_eq_ok_iff.mp hm).2.2.1, without_concat_of_any hany] at hle
      exact all_isAt_of_countP_concat_le (v := ⟨s.heapNext, u, a⟩) hle
  | @leave _ a c drawn now h => exact absurd rfl (hleave a c drawn now)
  | logout => exact trivial
  | servJoin => exact trivial
  | servLeave => exact trivial
  | timeouts => exact trivial
  | renewal => exact trivial
  | recorded hq => exact hquiet hq
  | idle hq => exact hquiet hq

/-! ### What follows for says and leaves -/

theorem saysTo_append (a : Sockaddr) (xs ys : List Datagram) :
    saysTo a (xs ++ ys) = saysTo a xs + saysTo a ys :=
  List.countP_append

/-- A text of a say for each entry. -/
theorem saysTo_textsTo (a : Sockaddr) (es : List (Option User)) (c : Name) (u : Username)
    (t : SayText) : saysTo a (textsTo es (.say c u t)) = es.countP (isAt a) := by
  induction es with
  | nil => rfl
  | cons e es ih =>
    rw [List.countP_cons, ← ih]
    cases e with
    | none => rfl
    | some v =>
      show List.countP _ (_ :: textsTo es _) = _
      rw [List.countP_cons, saysTo]
      simp [Payload.isSay]

theorem saysTo_of_sends {α : Type} {x : Act α} (h : x.Sends fun d => d.payload.isSay = false) :
    saysTo a x.out = 0 := by
  rw [saysTo, List.countP_eq_zero]
  intro d hd
  simp [h d hd]

/-- The texts of a say are those of its loop: the packets for the neighbours come after it. -/
theorem saysTo_reqSay {chnl : Channel} (hf : findChannel s.channels c = some chnl) :
    saysTo a (reqSay s b c t drawn).out =
      saysTo a (sayLoop s.heap chnl b c t chnl.entries).out := by
  rw [reqSay, hf]
  cases hl : (sayLoop s.heap chnl b c t chnl.entries).result with
  | error f => rw [Emit.out_bind_of_error hl]
  | ok u =>
    rw [Emit.out_bind_of_ok hl, saysTo_append]
    refine Nat.add_eq_left.mpr (saysTo_of_sends ?_)
    refine (Emit.sends_lift _).bind fun usr _ => (Emit.sends_lift _).bind fun ids _ =>
      (Emit.sends_emitAll fun d hd => ?_).bind fun _ _ => Emit.sends_pure _
    obtain ⟨srvr, -, rfl⟩ := List.mem_map.mp hd
    rfl

/-- **Each member gets a say once**, if and only if the speaker is a member. -/
theorem says_once_iff (hs : Single s) (hr : Referential s) (now : ℤ) :
    (∀ v, some v ∈ s.usersOf c → saysTo v.address (reqSay s a c t drawn).out = 1) ↔
      Orderly s (.datagram a (.client (.say c t)) drawn now) := by
  rw [Orderly, ServerState.usersOf]
  cases hf : findChannel s.channels c with
  | none => simp
  | some chnl =>
    have hread := hr chnl (findChannel_some hf).1
    dsimp only
    constructor
    · intro honce hne
      by_contra hno
      -- the first turn of the loop follows the result of a search that finds nobody
      obtain ⟨e, es, hes⟩ := List.exists_cons_of_ne_nil hne
      have hmem : e ∈ chnl.entries := by rw [hes]; exact List.mem_cons_self
      obtain ⟨v, -, rfl⟩ := hread e hmem
      have hnone : chnl.entries.find? (isAt a) = none :=
        List.find?_eq_none.mpr fun x hx hat => hno ⟨x, hx, hat⟩
      have hsilent : (sayLoop s.heap chnl a c t chnl.entries).out = [] := by
        rw [hes, sayLoop, findByaddr_eq_ok hread, hnone]
        rfl
      have := honce v hmem
      rw [saysTo_reqSay hf, hsilent] at this
      cases this
    · intro hmember v hv
      obtain ⟨e, he, hat⟩ := hmember (List.ne_nil_of_mem hv)
      obtain ⟨w, -, rfl⟩ := hread e he
      obtain ⟨name, hloop⟩ := sayLoop_eq (c := c) (t := t) hread he (isAt_some.mp hat) hread
      rw [saysTo_reqSay hf, hloop, saysTo_textsTo]
      have hle := hs chnl (findChannel_some hf).1 v.address
      have hpos : 0 < chnl.entries.countP (isAt v.address) :=
        List.countP_pos_iff.mpr ⟨some v, hv, isAt_some.mpr rfl⟩
      omega

/-- A say goes to entries of its channel only, also when it does not end well. -/
theorem saysTo_eq_zero (h : ∀ e ∈ s.usersOf c, isAt a e = false) :
    saysTo a (reqSay s b c t drawn).out = 0 := by
  have hloop : ∀ (heap : List User) (chnl : Channel) (es : List (Option User)),
      (∀ e ∈ es, isAt a e = false) → saysTo a (sayLoop heap chnl b c t es).out = 0 := by
    intro heap chnl es hes
    rw [saysTo, List.countP_eq_zero]
    show (sayLoop heap chnl b c t es).Sends _
    induction es with
    | nil => exact Emit.sends_pure _
    | cons e es ih =>
      refine (Emit.sends_lift _).bind fun found _ => (Emit.sends_lift _).bind fun speaker _ =>
        (Emit.sends_lift _).bind fun usr hu => (Emit.sends_emit ?_).bind fun _ _ =>
          ih fun x hx => hes x (List.mem_cons_of_mem _ hx)
      have hno := hes e List.mem_cons_self
      obtain ⟨rfl, -⟩ := deref_eq_ok_iff.mp hu
      rw [← Bool.not_eq_true, isAt_some] at hno
      simp [hno]
  cases hf : findChannel s.channels c with
  | none =>
    rw [reqSay, hf]
    simp [sendText, saysTo, Payload.isSay, fillError]
  | some chnl =>
    rw [ServerState.usersOf, hf] at h
    rw [saysTo_reqSay hf]
    exact hloop s.heap chnl chnl.entries h

/-- A member is logged in. -/
theorem Referential.exists_user (hr : Referential s) (hown : ∃ e ∈ s.usersOf c, isAt a e = true) :
    ∃ chnl usr, findChannel s.channels c = some chnl ∧ s.usersOf c = chnl.entries ∧
      findUser s.allUsers a = some usr := by
  obtain ⟨e, he, hat⟩ := hown
  obtain ⟨chnl, hf, huse⟩ := exists_find_of_usersOf (List.ne_nil_of_mem he)
  rw [huse] at he
  obtain ⟨v, hv, rfl⟩ := hr chnl (findChannel_some hf).1 e he
  obtain ⟨usr, hu⟩ : ∃ usr, findUser s.allUsers a = some usr :=
    Option.isSome_iff_exists.mp
      (List.find?_isSome.mpr ⟨v, hv, addrCmp_iff.mpr (isAt_some.mp hat)⟩)
  exact ⟨chnl, usr, hf, huse, hu⟩

/-- A leave brings no entry in. -/
theorem Single.leave (hs : Single s) (h : (reqLeave s a c).result = .ok s') : Single s' := by
  intro chnl hch b
  have hroster : RosterStep s (.datagram a (.client (.leave c)) 0 0) chnl.chnlName chnl.entries :=
    rosters_reqLeave h chnl hch
  generalize chnl.chnlName = n at hroster
  generalize chnl.entries = es at hroster ⊢
  cases hroster with
  | kept hk => exact hs _ hk b
  | created => exact Nat.zero_le 1
  | left hf => exact Nat.le_trans without_sublist.countP_le (hs _ (findChannel_some hf).1 b)

/-- The leave of a member ends well and takes one entry out. -/
theorem exists_leave_of_member {addrs : List Sockaddr} (hreach : Reachable addrs s)
    (hr : Referential s) (hown : ∃ e ∈ s.usersOf c, isAt a e = true) :
    ∃ s' usr g l₁ l₂, (reqLeave s a c).result = .ok s' ∧ findUser s.allUsers a = some usr ∧
      goes usr.username (s.usersOf c) = some g ∧ s.usersOf c = l₁ ++ g :: l₂ ∧
      s'.usersOf c = l₁ ++ l₂ := by
  obtain ⟨chnl, usr, hf, huse, hu⟩ := hr.exists_user hown
  have hok : (reqLeave s a c).result = .ok (s.afterLeave c usr.username chnl) :=
    (reqLeave_user_eq_ok_iff hf hu).mpr
      ⟨legible_of_readable (hr chnl (findChannel_some hf).1), rfl⟩
  have hne : chnl.entries ≠ [] := by
    obtain ⟨e, he, -⟩ := hown
    rw [huse] at he
    exact List.ne_nil_of_mem he
  obtain ⟨g, hg⟩ := exists_goes usr.username hne
  obtain ⟨l₁, l₂, hl, hw⟩ := exists_without hg
  refine ⟨_, usr, g, l₁, l₂, hok, hu, by rw [huse, hg], huse.trans hl, ?_⟩
  rw [usersOf_afterLeave hreach.nodup_names hf, if_pos rfl, hw]

/-- **One leave is enough** for a member, and ends well, if and only if the entry that goes is the
member's. -/
theorem leave_ends_iff {addrs : List Sockaddr} {now : ℤ} (hreach : Reachable addrs s)
    (hs : Single s) (hr : Referential s) (hown : ∃ e ∈ s.usersOf c, isAt a e = true) :
    (∃ s', (reqLeave s a c).result = .ok s' ∧
        ∀ b t id, saysTo a (reqSay s' b c t id).out = 0) ↔
      Orderly s (.datagram a (.client (.leave c)) drawn now) := by
  obtain ⟨left, usr, g, l₁, l₂, hok, hu, hg, hl, hafter⟩ := exists_leave_of_member hreach hr hown
  have hcount : (s.usersOf c).countP (isAt a) =
      (l₁ ++ l₂).countP (isAt a) + if isAt a g = true then 1 else 0 := by
    rw [hl, List.countP_append, List.countP_cons, List.countP_append, Nat.add_assoc]
  have horderly : Orderly s (.datagram a (.client (.leave c)) drawn now) ↔ isAt a g = true := by
    rw [Orderly, imp_iff_right hown, hu]
    simp only [Option.mem_some_iff, forall_eq', hg, exists_eq_left']
  rw [horderly]
  constructor
  · rintro ⟨s', hres, hnone⟩
    obtain rfl := Except.ok.inj (hok.symm.trans hres)
    by_contra hga
    -- the member's own entry is still there, and its own next say comes back to it
    have hpos : 0 < (l₁ ++ l₂).countP (isAt a) := by
      have hmem : 0 < (s.usersOf c).countP (isAt a) := List.countP_pos_iff.mpr hown
      rw [hcount, if_neg hga] at hmem
      exact hmem
    rw [← hafter] at hpos
    obtain ⟨e, he, hat⟩ := List.countP_pos_iff.mp hpos
    have hr' : Referential left :=
      hr.step (i := .datagram a (.client (.leave c)) drawn now) trivial hok
    obtain ⟨chnl, -, hf, huse, -⟩ := hr'.exists_user ⟨e, he, hat⟩
    obtain ⟨v, -, rfl⟩ := hr' chnl (findChannel_some hf).1 e (by rw [← huse]; exact he)
    have hone : saysTo v.address (reqSay left a c ⟨[], by simp, by decide⟩ 0).out = 1 :=
      (says_once_iff (hs.leave hok) hr' 0).mpr (fun _ => ⟨_, he, hat⟩) v he
    rw [isAt_some.mp hat, hnone a _ 0] at hone
    cases hone
  · intro hga
    refine ⟨left, hok, fun b t id => saysTo_eq_zero fun e he => ?_⟩
    have hle := countP_usersOf_le hs c a
    rw [hcount, if_pos hga] at hle
    have hzero : (l₁ ++ l₂).countP (isAt a) = 0 := by omega
    rw [hafter] at he
    rw [← Bool.not_eq_true]
    exact List.countP_eq_zero.mp hzero e he

end Single

/-- **Joining once.** In every run of inputs that are careful and orderly where they are taken, in
every state reached: no address has two entries in a channel; a say by a member sends every member
one text; and one leave of a member, if the entry that goes is its own, ends well, and no say to the
channel sends it any text then. -/
theorem rosters_single (addrs : List Sockaddr) (unset now : ℤ) (is : List Input)
    (s : ServerState) (h : Run ServerState.next Regular (ServerState.start addrs unset now) is s) :
    Single s ∧
      (∀ a c t drawn now, Orderly s (.datagram a (.client (.say c t)) drawn now) →
        ∀ v, some v ∈ s.usersOf c → saysTo v.address (reqSay s a c t drawn).out = 1) ∧
      ∀ a c drawn now, Orderly s (.datagram a (.client (.leave c)) drawn now) →
        (∃ e ∈ s.usersOf c, isAt a e = true) →
          ∃ s', (reqLeave s a c).result = .ok s' ∧
            ∀ b t id, saysTo a (reqSay s' b c t id).out = 0 := by
  have hreach : Reachable addrs s := Reachable.of_run (.start unset now) h
  have hr : Referential s :=
    (referential_start addrs unset now).of_run (h.mono fun _ _ hreg => hreg.1)
  have hs : Single s := by
    refine h.invariant (fun _ _ _ hs hreg hst => hs.step hreg.2 (next_eq_some_iff.mp hst)) ?_
    intro chnl hch b
    rw [List.mem_singleton.mp hch]
    exact Nat.zero_le 1
  refine ⟨hs, fun a c t drawn now ho => (says_once_iff hs hr now).mpr ho, ?_⟩
  intro a c drawn now ho hown
  exact (leave_ends_iff hreach hs hr hown).mpr ho

open Three in
theorem rosters_single_on_gathering :
    ∃ s, Run ServerState.next Regular alone gathering s ∧ Single s ∧
      ((s.usersOf chnlX).length = 2 ∧ ∀ v, some v ∈ s.usersOf chnlX →
        saysTo v.address (reqSay s (client 0) chnlX hello 8).out = 1) ∧
      ∃ s', (reqLeave s (client 1) chnlX).result = .ok s' ∧
        ∀ b t id, saysTo (client 1) (reqSay s' b chnlX t id).out = 0 := by
  have h : (execute ServerState.next Regular alone gathering).any (fun s =>
      (s.usersOf chnlX).length = 2 ∧ Orderly s (ask 0 (.say chnlX hello)) ∧
        Orderly s (ask 1 (.leave chnlX)) ∧
        ∃ e ∈ s.usersOf chnlX, isAt (client 1) e = true) = true := by
    decide
  obtain ⟨s, hr, hs⟩ := exists_run_of_execute h
  obtain ⟨hlen, hsay, hleave, hown⟩ := of_decide_eq_true hs
  obtain ⟨hsingle, hsays, hleaves⟩ := rosters_single [] 0 0 gathering s hr
  exact ⟨s, hr, hsingle, ⟨hlen, hsays _ _ _ 8 0 hsay⟩, hleaves _ _ 0 0 hleave hown⟩

open Three in
/-- A user joins Common twice: two entries, and two texts for one say. -/
theorem joins_repeat :
    (¬ ∀ (addrs : List Sockaddr) (unset now : ℤ) (is : List Input) (s : ServerState),
        (∀ i ∈ is, i.isClient) →
        Run ServerState.next (fun _ _ => True) (ServerState.start addrs unset now) is s →
        Single s) ∧
      ∃ s, Run ServerState.next (fun _ _ => True) alone
          [enter 0, ask 0 (.join common), ask 0 (.join common)] s ∧
        (reqSay s (client 0) common hello 1).result.isOk ∧
        saysTo (client 0) (reqSay s (client 0) common hello 1).out = 2 := by
  have hex : (execute ServerState.next (fun _ _ => True) alone
      [enter 0, ask 0 (.join common), ask 0 (.join common)]).any
        (fun s => (∃ chnl ∈ s.channels.live, 2 ≤ chnl.entries.countP (isAt (client 0))) ∧
          (reqSay s (client 0) common hello 1).result.isOk ∧
          saysTo (client 0) (reqSay s (client 0) common hello 1).out = 2) = true := by
    decide
  obtain ⟨s, hr, hs⟩ := exists_run_of_execute hex
  obtain ⟨⟨chnl, hch, hle⟩, hsay⟩ := of_decide_eq_true hs
  refine ⟨fun h => ?_, s, hr, hsay⟩
  have := h [] 0 0 _ s (by decide) hr chnl hch (client 0)
  omega

end DuckChat
