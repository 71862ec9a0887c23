import DuckChat.Roster

/-!
# What sessions and leaves do to everybody else

`REQ_LOGOUT`, `REQ_LOGIN` and `REQ_LEAVE` each take one user out of rosters, and each of them does
it by `remove_user`, which looks for a name and lets the last entry go when it finds none. Users
are told apart by their addresses everywhere else. For each of the three this says when the request
does what it is for and nothing more: as an equivalence, over the state before it.

## Main definitions

* `LogoutExact`, `LoginExact`, `LeaveExact` — what the request is for
* `LogoutClean`, `LoginClean`, `LeaveClean` — the states in which it does that

## Main results

* `logoutExact_iff`, `loginExact_iff`, `leaveExact_iff`
-/

set_option autoImplicit false

namespace DuckChat

/-! ### Lists with one element less -/

section Lists

variable {α : Type}

/-- Taking one element out of a list in two ways with the same rest takes out the same element. -/
theorem eq_of_rest_eq {x y : α} {l₁ l₂ k₁ k₂ : List α} (h : l₁ ++ x :: l₂ = k₁ ++ y :: k₂)
    (hrest : l₁ ++ l₂ = k₁ ++ k₂) : x = y := by
  have hp : (x :: (l₁ ++ l₂)).Perm (y :: (l₁ ++ l₂)) := by
    refine List.perm_middle.symm.trans ?_
    rw [h, hrest]
    exact List.perm_middle
  have hm : x ::ₘ ((l₁ ++ l₂ : List α) : Multiset α) = y ::ₘ ((l₁ ++ l₂ : List α) : Multiset α) :=
    Multiset.coe_eq_coe.mpr hp
  exact (Multiset.cons_inj_left _).mp hm

/-- Among the elements that pass a test, exactly one is gone. -/
theorem filter_rest_iff {p : α → Bool} {x : α} {l₁ l₂ : List α} :
    ((∀ y ∈ l₁ ++ l₂, p y = false) ∧
        (l₁ ++ l₂).filter (fun y => !p y) = (l₁ ++ x :: l₂).filter fun y => !p y) ↔
      p x = true ∧ (l₁ ++ x :: l₂).countP p = 1 := by
  have hcount : (l₁ ++ x :: l₂).countP p = (l₁ ++ l₂).countP p + if p x = true then 1 else 0 := by
    rw [List.countP_append, List.countP_cons, List.countP_append, Nat.add_assoc]
  have hnone : (∀ y ∈ l₁ ++ l₂, p y = false) ↔ (l₁ ++ l₂).countP p = 0 := by
    rw [List.countP_eq_zero]
    simp only [Bool.not_eq_true]
  rw [hnone, hcount]
  constructor
  · rintro ⟨h0, hf⟩
    by_cases hx : p x = true
    · exact ⟨hx, by rw [h0, if_pos hx]⟩
    · -- an element that fails the test would be missed
      have hlen := congrArg List.length hf
      simp [hx] at hlen
  · rintro ⟨hx, hc⟩
    rw [if_pos hx] at hc
    refine ⟨by omega, ?_⟩
    simp [hx]

end Lists

/-! ### Logouts -/

/-- A logout from `a` does what it is for: no channel has an entry of the user any more, nor has the
table of users, and the others keep their entries and their places. -/
structure LogoutExact (s s' : ServerState) (a : Sockaddr) : Prop where
  left : ∀ chnl ∈ s'.channels.live, ∀ e ∈ chnl.entries, isAt a e = false
  forgotten : ∀ v ∈ s'.heap, addrCmp v.address a = false
  others :
    s'.channels.live.map (fun chnl => (chnl.chnlName, chnl.entries.filter fun e => !isAt a e)) =
      s.channels.live.map fun chnl => (chnl.chnlName, chnl.entries.filter fun e => !isAt a e)
  users : (s'.heap.filter fun v => !addrCmp v.address a) =
    s.heap.filter fun v => !addrCmp v.address a

/-- The user is logged in once. In every channel that is not empty it has one entry, which is the
first under its name, and up to there the entries can be read. -/
structure LogoutClean (s : ServerState) (a : Sockaddr) (usr : User) : Prop where
  once : s.heap.countP (fun v => addrCmp v.address a) = 1
  entries : ∀ chnl ∈ s.channels.live, chnl.entries = [] ∨
    Legible s.heap (fun v => v.username == usr.username) chnl.entries ∧
      chnl.entries.find? (isNamed usr.username) = some (some usr) ∧
      chnl.entries.countP (isAt a) = 1

instance decidableLogoutClean (s : ServerState) (a : Sockaddr) (usr : User) :
    Decidable (LogoutClean s a usr) :=
  decidable_of_iff (s.heap.countP (fun v => addrCmp v.address a) = 1 ∧
      ∀ chnl ∈ s.channels.live, chnl.entries = [] ∨
        Legible s.heap (fun v => v.username == usr.username) chnl.entries ∧
          chnl.entries.find? (isNamed usr.username) = some (some usr) ∧
          chnl.entries.countP (isAt a) = 1)
    ⟨fun h => ⟨h.1, h.2⟩, fun h => ⟨h.once, h.entries⟩⟩

section Logout

variable {s : ServerState} {a : Sockaddr} {u : Username} {usr : User} {es : List (Option User)}

/-- One roster. -/
theorem without_exact_iff :
    ((∀ e ∈ without u es, isAt a e = false) ∧
        (without u es).filter (fun e => !isAt a e) = es.filter fun e => !isAt a e) ↔
      es = [] ∨ ∃ e, goes u es = some e ∧ isAt a e = true ∧ es.countP (isAt a) = 1 := by
  by_cases hes : es = []
  · rw [hes]
    simp
  · obtain ⟨e, he⟩ := exists_goes u hes
    obtain ⟨l₁, l₂, hl, hw⟩ := exists_without he
    rw [hw, or_iff_right hes, he]
    simp only [Option.some.injEq, exists_eq_left']
    rw [hl]
    exact filter_rest_iff

/-- Where the user is logged in once and the entries can be read, an entry at its address that goes
is its own, and it goes for its name. -/
theorem goes_iff_find? (hu : findUser s.allUsers a = some usr)
    (honce : s.heap.countP (fun v => addrCmp v.address a) = 1)
    (hleg : Legible s.heap (fun v => v.username == usr.username) es) :
    (∃ e, goes usr.username es = some e ∧ isAt a e = true) ↔
      es.find? (isNamed usr.username) = some (some usr) := by
  obtain ⟨huh, hua⟩ := mem_heap_of_findUser hu
  have hown : ∀ e, Readable s.heap e → isAt a e = true → e = some usr := by
    rintro e ⟨w, hw, rfl⟩ hea
    -- the only user with the address
    have hlen : (s.heap.filter fun v => addrCmp v.address a).length = 1 := by
      rw [← List.countP_eq_length_filter, honce]
    obtain ⟨x, hx⟩ := List.length_eq_one_iff.mp hlen
    have hmem : ∀ v ∈ s.heap, v.address = a → v = x := fun v hv hva => by
      rw [← List.mem_singleton, ← hx, List.mem_filter]
      exact ⟨hv, addrCmp_iff.mpr hva⟩
    rw [hmem w hw (isAt_some.mp hea), hmem usr huh hua]
  constructor
  · rintro ⟨e, he, hea⟩
    cases hf : es.find? (isNamed usr.username) with
    | some x =>
      rw [goes, hf, Option.some_or] at he
      cases he
      rw [hown _ (hleg.readable_of_find? hf) hea]
    | none =>
      rw [goes, hf, Option.none_or] at he
      have hmem : e ∈ es := List.mem_of_getLast? he
      have hno : ∀ x ∈ es, isNamed usr.username x = false := fun x hx => by
        rw [← Bool.not_eq_true]
        exact List.find?_eq_none.mp hf x hx
      have heq := hown e (hleg.readable hno e hmem) hea
      have := hno e hmem
      rw [heq, ← Bool.not_eq_true, isNamed_some] at this
      exact absurd rfl this
  · intro hf
    exact ⟨some usr, by rw [goes, hf, Option.some_or], isAt_some.mpr hua⟩

/-- The table of users. -/
theorem forget_exact_iff (hu : findUser s.allUsers a = some usr) :
    ((∀ v ∈ s.heap.eraseP (fun v => addrCmp v.address a), addrCmp v.address a = false) ∧
        ((s.heap.eraseP fun v => addrCmp v.address a).filter fun v => !addrCmp v.address a) =
          s.heap.filter fun v => !addrCmp v.address a) ↔
      s.heap.countP (fun v => addrCmp v.address a) = 1 := by
  obtain ⟨l₁, l₂, hl, he⟩ := exists_eraseP_heap hu
  rw [he, hl, filter_rest_iff]
  exact and_iff_right (addrCmp_iff.mpr (mem_heap_of_findUser hu).2)

/-- **When a logout is exact.** The request from an address that is logged in takes the user out of
every channel and the table, and leaves all others as they are, if and only if the user is logged
in once and is in every channel that is not empty, once, first among those of its name. -/
theorem logoutExact_iff (s : ServerState) (a : Sockaddr) (usr : User)
    (hu : findUser s.allUsers a = some usr) :
    (∃ s', (reqLogout s a).result = .ok s' ∧ LogoutExact s s' a) ↔ LogoutClean s a usr := by
  have hheap : (s.loggedOut a usr.username).heap =
      s.heap.eraseP fun v => addrCmp v.address a := allUsers_loggedOut hu
  constructor
  · rintro ⟨s', hr, hex⟩
    obtain ⟨v, hv, hleg, rfl⟩ := reqLogout_eq_ok_iff.mp hr
    rw [hu] at hv
    cases hv
    obtain ⟨hleft, hforgotten, hothers, husers⟩ := hex
    rw [hheap] at hforgotten husers
    have honce := (forget_exact_iff hu).mp ⟨hforgotten, husers⟩
    refine ⟨honce, fun chnl hch => ?_⟩
    rw [channels_loggedOut, List.map_map] at hothers
    have hkept := List.map_inj_left.mp hothers chnl hch
    have hgone := hleft (chnl.expel usr.username)
      (by rw [channels_loggedOut]; exact List.mem_map_of_mem hch)
    rw [entries_expel] at hgone
    have hfilter := congrArg Prod.snd hkept
    simp only [Function.comp_apply, entries_expel] at hfilter
    refine (without_exact_iff.mp ⟨hgone, hfilter⟩).imp_right ?_
    rintro ⟨e, he, hea, hone⟩
    exact ⟨hleg chnl hch, (goes_iff_find? hu honce (hleg chnl hch)).mp ⟨e, he, hea⟩, hone⟩
  · rintro ⟨honce, hentries⟩
    obtain ⟨hforgotten, husers⟩ := (forget_exact_iff hu).mpr honce
    have hroster : ∀ chnl ∈ s.channels.live,
        Legible s.heap (fun v => v.username == usr.username) chnl.entries ∧
          (∀ e ∈ without usr.username chnl.entries, isAt a e = false) ∧
          (without usr.username chnl.entries).filter (fun e => !isAt a e) =
            chnl.entries.filter fun e => !isAt a e := by
      intro chnl hch
      rcases hentries chnl hch with hnil | ⟨hleg, hf, hone⟩
      · refine ⟨?_, without_exact_iff.mpr (Or.inl hnil)⟩
        rw [hnil]
        trivial
      · obtain ⟨e, he, hea⟩ := (goes_iff_find? hu honce hleg).mpr hf
        exact ⟨hleg, without_exact_iff.mpr (Or.inr ⟨e, he, hea, hone⟩)⟩
    refine ⟨_, reqLogout_eq_ok_iff.mpr ⟨usr, hu, fun chnl hch => (hroster chnl hch).1, rfl⟩,
      ?_, ?_, ?_, ?_⟩
    · intro chnl hch
      rw [channels_loggedOut] at hch
      obtain ⟨old, hold, rfl⟩ := List.mem_map.mp hch
      rw [entries_expel]
      exact (hroster old hold).2.1
    · rw [hheap]
      exact hforgotten
    · rw [channels_loggedOut, List.map_map]
      refine List.map_congr_left fun chnl hch => ?_
      rw [Function.comp_apply, entries_expel, chnlName_expel, (hroster chnl hch).2.2]
    · rw [hheap]
      exact husers

end Logout

open Three in
/-- In the crowd there is one who is in both channels that are not empty. -/
theorem logoutExact_crowd :
    ∃ s, Reachable (line.nbrAddrs 1) s ∧ (s.heap.length = 3 ∧ s.names.length = 3) ∧
      ∃ s', (reqLogout s (client 1)).result = .ok s' ∧ LogoutExact s s' (client 1) := by
  obtain ⟨s, hs, hp⟩ := exists_crowd (p := fun s => (s.heap.length = 3 ∧ s.names.length = 3) ∧
    findUser s.allUsers (client 1) = some ⟨1, username 1, client 1⟩ ∧
    LogoutClean s (client 1) ⟨1, username 1, client 1⟩) (by decide)
  obtain ⟨hlen, hu, hclean⟩ := of_decide_eq_true hp
  exact ⟨s, hs, hlen, (logoutExact_iff s (client 1) _ hu).mpr hclean⟩

open Three in
/-- Two users are logged in and one is in Common. The other logs out: Common is empty. -/
theorem logout_takes_out_bystander :
    ¬ ∀ (addrs : List Sockaddr) (s : ServerState) (a : Sockaddr) (usr : User),
      Reachable addrs s → findUser s.allUsers a = some usr →
        ∃ s', (reqLogout s a).result = .ok s' ∧ LogoutExact s s' a := by
  intro h
  have hex : ∃ s, Reachable [] s ∧ decide (
      findUser s.allUsers (client 1) = some ⟨1, username 1, client 1⟩ ∧
      ∀ s' ∈ (reqLogout s (client 1)).result.toOption,
        s'.channels.live.map (fun chnl => chnl.entries.filter fun e => !isAt (client 1) e) ≠
          s.channels.live.map fun chnl => chnl.entries.filter fun e => !isAt (client 1) e) = true :=
    exists_reachable_of_execute [enter 0, enter 1, ask 0 (.join common)] (by decide)
  obtain ⟨s, hs, hp⟩ := hex
  obtain ⟨hu, hne⟩ := of_decide_eq_true hp
  obtain ⟨s', hr, hexact⟩ := h [] s (client 1) _ hs hu
  refine hne s' (by rw [hr]; rfl) ?_
  have hothers := congrArg (List.map Prod.snd) hexact.others
  rwa [List.map_map, List.map_map] at hothers

/-! ### Logins -/

/-- A channel's name and its roster. -/
def Channel.roster (chnl : Channel) : Name × List (Option User) := (chnl.chnlName, chnl.entries)

/-- A login does what it is for: the rosters are what they were, and the new user is the last in
the table. -/
structure LoginExact (s s' : ServerState) (a : Sockaddr) (u : Username) : Prop where
  rosters : s'.channels.live.map Channel.roster = s.channels.live.map Channel.roster
  users : s'.heap = s.heap ++ [⟨s.heapNext, u, a⟩]

/-- There is room for the user, and the first channel in the table, if there is one, has room as
well, entries that can all be read, and nobody of that name. -/
structure LoginClean (s : ServerState) (u : Username) : Prop where
  users : 0 ≤ s.allUsers.count ∧ s.allUsers.count < MAX_USERS
  first : ∀ chnl ∈ s.channels.live.head?, (0 ≤ chnl.numUsers ∧ chnl.numUsers < MAX_USERS) ∧
    ∀ e ∈ chnl.entries, Readable s.heap e ∧ isNamed u e = false

instance decidableLoginClean (s : ServerState) (u : Username) : Decidable (LoginClean s u) :=
  decidable_of_iff ((0 ≤ s.allUsers.count ∧ s.allUsers.count < MAX_USERS) ∧
      ∀ chnl ∈ s.channels.live.head?, (0 ≤ chnl.numUsers ∧ chnl.numUsers < MAX_USERS) ∧
        ∀ e ∈ chnl.entries, Readable s.heap e ∧ isNamed u e = false)
    ⟨fun h => ⟨h.1, h.2⟩, fun h => ⟨h.users, h.first⟩⟩

section Login

variable {s : ServerState} {a : Sockaddr} {u : Username} {es : List (Option User)}

/-- What can be read once a new block is allocated could be read before, but for the block. -/
theorem readable_of_readable_cons {heap : List User} {v : User} {e : Option User}
    (h : Readable (v :: heap) e) (hne : e ≠ some v) : Readable heap e := by
  obtain ⟨w, hw, rfl⟩ := h
  rcases List.mem_cons.mp hw with rfl | hw
  · exact absurd rfl hne
  · exact ⟨w, hw, rfl⟩

theorem Legible.of_append {heap : List User} {p : User → Bool} {es₂ : List (Option User)}
    (h : Legible heap p (es ++ es₂)) : Legible heap p es := by
  induction es with
  | nil => trivial
  | cons e es ih =>
    obtain ⟨he, hk⟩ := h
    exact ⟨he, hk.imp_right ih⟩

/-- A login that does what it is for had room, could read, and met nobody of its name. The block of
the new user is in no roster yet. -/
theorem LoginExact.clean {s' : ServerState}
    (hnew : ∀ chnl ∈ s.channels.live, some (⟨s.heapNext, u, a⟩ : User) ∉ chnl.entries)
    (hr : (reqLogin s a u).result = .ok s') (hex : LoginExact s s' a u) : LoginClean s u := by
  obtain ⟨users, hst, hk⟩ := reqLogin_eq_ok_iff.mp hr
  obtain ⟨h0, hlt, -⟩ := store_eq_ok_iff.mp hst
  refine ⟨⟨h0, hlt⟩, fun chnl hch => ?_⟩
  rcases hk with ⟨hl, -⟩ | ⟨first, chnls, mid, hl, hm, hleg, rfl⟩
  · rw [hl] at hch
    cases hch
  · rw [hl] at hch
    obtain rfl : first = chnl := Option.some.inj hch
    have hmem : first ∈ s.channels.live := by rw [hl]; exact List.mem_cons_self
    obtain ⟨hc0, hclt, hes, -⟩ := addUser_eq_ok_iff.mp hm
    have hroster := hex.rosters
    simp only at hroster
    rw [Table.live_overwrite (by rw [hl]; rfl), hl, List.map_cons, List.map_cons] at hroster
    have hsame : without u (first.entries ++ [some ⟨s.heapNext, u, a⟩]) = first.entries := by
      rw [← hes, ← entries_expel]
      exact congrArg Prod.snd (List.cons.inj hroster).1
    -- an older user of the name would have made room for the new one
    have hno : ∀ e ∈ first.entries, isNamed u e = false := by
      intro e he
      rw [← Bool.not_eq_true]
      intro hp
      rw [without_concat_of_any (List.any_eq_true.mpr ⟨e, he, hp⟩)] at hsame
      refine hnew first hmem ?_
      rw [← hsame]
      exact List.mem_append_right _ (List.mem_singleton_self _)
    rw [hes] at hleg
    refine ⟨⟨hc0, hclt⟩, fun e he => ⟨?_, hno e he⟩⟩
    refine readable_of_readable_cons (hleg.of_append.readable hno e he) fun heq => ?_
    rw [heq] at he
    exact hnew first hmem he

/-- A login that has room, can read, and meets nobody of its name does what it is for. -/
theorem LoginClean.exact (h : LoginClean s u) :
    ∃ s', (reqLogin s a u).result = .ok s' ∧ LoginExact s s' a u := by
  obtain ⟨⟨h0, hlt⟩, hfirst⟩ := h
  obtain ⟨users, hst⟩ := exists_store (⟨s.heapNext, u, a⟩ : User) h0 hlt
  have husers : users.live = s.heap ++ [⟨s.heapNext, u, a⟩] := (store_eq_ok_iff.mp hst).2.2.1
  cases hl : s.channels.live with
  | nil =>
    refine ⟨_, reqLogin_eq_ok_iff.mpr ⟨users, hst, Or.inl ⟨hl, rfl⟩⟩, rfl, husers⟩
  | cons chnl chnls =>
    obtain ⟨⟨hc0, hclt⟩, hes⟩ := hfirst chnl (by rw [hl]; rfl)
    obtain ⟨mid, hm⟩ := exists_addUser (some (⟨s.heapNext, u, a⟩ : User)) hc0 hclt
    obtain ⟨-, -, hmid, -, hname, -⟩ := addUser_eq_ok_iff.mp hm
    have hread : ∀ e ∈ chnl.entries ++ [some (⟨s.heapNext, u, a⟩ : User)],
        Readable (⟨s.heapNext, u, a⟩ :: s.heap) e := by
      intro e he
      rcases List.mem_append.mp he with he | he
      · obtain ⟨w, hw, rfl⟩ := (hes e he).1
        exact ⟨w, List.mem_cons_of_mem _ hw, rfl⟩
      · rw [List.mem_singleton.mp he]
        exact ⟨_, List.mem_cons_self, rfl⟩
    refine ⟨_, reqLogin_eq_ok_iff.mpr ⟨users, hst, Or.inr ⟨chnl, chnls, _, hl, hm, ?_, rfl⟩⟩,
      ?_, husers⟩
    · rw [hmid]
      exact legible_of_readable hread
    · have hsame : (mid.expel u).entries = chnl.entries := by
        rw [entries_expel, hmid]
        exact without_concat (fun e he => (hes e he).2) rfl
      simp only
      rw [Table.live_overwrite (by rw [hl]; rfl), hl, List.map_cons, List.map_cons]
      refine congrArg (· :: chnls.map Channel.roster) ?_
      rw [Channel.roster, hsame, chnlName_expel, hname, Channel.roster]

/-- **When a login is exact.** In every reachable state, a login leaves all rosters as they are and
appends its user, if and only if there is room and the first channel in the table is sound and has
nobody of that name. -/
theorem loginExact_iff (addrs : List Sockaddr) (s : ServerState) (a : Sockaddr) (u : Username)
    (hs : Reachable addrs s) :
    (∃ s', (reqLogin s a u).result = .ok s' ∧ LoginExact s s' a u) ↔ LoginClean s u := by
  obtain ⟨-, hfresh⟩ := hs.fresh
  constructor
  · rintro ⟨s', hr, hex⟩
    exact hex.clean (fun chnl hch hmem => Nat.lt_irrefl _ (hfresh chnl hch _ hmem)) hr
  · exact fun h => h.exact

end Login

open Three in
/-- The third of the crowd, who is not in Common, logs in once more. -/
theorem loginExact_crowd :
    ∃ s, Reachable (line.nbrAddrs 1) s ∧ (s.usersOf common).length = 2 ∧
      ∃ s', (reqLogin s (client 2) (username 2)).result = .ok s' ∧
        LoginExact s s' (client 2) (username 2) := by
  obtain ⟨s, hs, hp⟩ := exists_crowd (p := fun s => (s.usersOf common).length = 2 ∧
    LoginClean s (username 2)) (by decide)
  obtain ⟨hlen, hclean⟩ := of_decide_eq_true hp
  exact ⟨s, hs, hlen,
    (loginExact_iff (line.nbrAddrs 1) s (client 2) (username 2) hs).mpr hclean⟩

open Three in
/-- A second user logs in under the name of one who is in Common: the first is out of it and the
second is in. -/
theorem login_takes_over_entry :
    ¬ ∀ (addrs : List Sockaddr) (s : ServerState) (a : Sockaddr) (u : Username),
      Reachable addrs s → ∃ s', (reqLogin s a u).result = .ok s' ∧ LoginExact s s' a u := by
  intro h
  obtain ⟨s, hs, hp⟩ : ∃ s, Reachable [] s ∧
      decide (∀ s' ∈ (reqLogin s (client 1) (username 0)).result.toOption,
        s'.channels.live.map Channel.roster ≠ s.channels.live.map Channel.roster) = true :=
    exists_reachable_of_execute [enter 0, ask 0 (.join common)] (by decide)
  obtain ⟨s', hr, hexact⟩ := h [] s (client 1) (username 0) hs
  exact of_decide_eq_true hp s' (by rw [hr]; rfl) hexact.rosters

/-! ### Leaves -/

/-- A leave of `c` from `a` does what it is for: one of the requester's entries goes, the others
stay in their order, and without such an entry the channel stays as it is; the channel is deleted
only with its last entry; and the other channels stay as they are. -/
structure LeaveExact (s s' : ServerState) (a : Sockaddr) (c : Name) : Prop where
  own : (∃ e ∈ s.usersOf c, isAt a e = true) → ∃ l₁ e l₂, s.usersOf c = l₁ ++ e :: l₂ ∧
    isAt a e = true ∧ s'.usersOf c = l₁ ++ l₂
  absent : (∀ e ∈ s.usersOf c, isAt a e = false) →
    findChannel s'.channels c = findChannel s.channels c
  deleted : c ∉ s'.names → ∃ e, s.usersOf c = [e] ∧ isAt a e = true
  others : ∀ d, d ≠ c → findChannel s'.channels d = findChannel s.channels d

/-- The entries can be read as far as `remove_user` reads them, and the one that goes, the first
under the requester's name or else the last, is the requester's. -/
structure LeaveClean (s : ServerState) (a : Sockaddr) (usr : User) (chnl : Channel) : Prop where
  legible : Legible s.heap (fun v => v.username == usr.username) chnl.entries
  own : ∃ e ∈ goes usr.username chnl.entries, isAt a e = true

instance decidableLeaveClean (s : ServerState) (a : Sockaddr) (usr : User) (chnl : Channel) :
    Decidable (LeaveClean s a usr chnl) :=
  decidable_of_iff (Legible s.heap (fun v => v.username == usr.username) chnl.entries ∧
      ∃ e ∈ goes usr.username chnl.entries, isAt a e = true)
    ⟨fun h => ⟨h.1, h.2⟩, fun h => ⟨h.legible, h.own⟩⟩

section Leave

variable {s : ServerState} {a : Sockaddr} {c : Name} {usr : User} {chnl : Channel}

/-- **When a leave is exact.** In every reachable state, a leave from an address that is logged in,
for a channel that is there, takes out one entry of the requester, if it has one, and changes
nothing else, if and only if the entry that `remove_user` takes out is the requester's. -/
theorem leaveExact_iff (addrs : List Sockaddr) (s : ServerState) (a : Sockaddr) (c : Name)
    (usr : User) (chnl : Channel) (hs : Reachable addrs s)
    (hu : findUser s.allUsers a = some usr) (hf : findChannel s.channels c = some chnl) :
    (∃ s', (reqLeave s a c).result = .ok s' ∧ LeaveExact s s' a c) ↔ LeaveClean s a usr chnl := by
  have hnd := hs.nodup_names
  have huse : s.usersOf c = chnl.entries := by rw [ServerState.usersOf, hf]
  have hfind := findChannel_afterLeave hnd hf usr.username
  have hafter := usersOf_afterLeave hnd hf usr.username c
  rw [if_pos rfl] at hafter
  constructor
  · rintro ⟨s', hr, hex⟩
    obtain ⟨hleg, rfl⟩ := (reqLeave_user_eq_ok_iff hf hu).mp hr
    refine ⟨hleg, ?_⟩
    by_cases hown : ∃ e ∈ s.usersOf c, isAt a e = true
    · obtain ⟨l₁, e, l₂, hl, hea, hrest⟩ := hex.own hown
      rw [huse] at hl
      obtain ⟨g, hg⟩ := exists_goes usr.username (show chnl.entries ≠ [] by rw [hl]; simp)
      obtain ⟨k₁, k₂, hk, hw⟩ := exists_without hg
      have heq : e = g := eq_of_rest_eq (hl.symm.trans hk) (by rw [← hrest, hafter, hw])
      exact ⟨g, hg, by rw [← heq]; exact hea⟩
    · -- the counter goes down all the same
      have habsent := hex.absent fun e he => by
        rw [← Bool.not_eq_true]
        exact fun hea => hown ⟨e, he, hea⟩
      rw [hfind, if_pos rfl, hf] at habsent
      split at habsent
      · cases habsent
      · have hcount := congrArg Channel.numUsers (Option.some.inj habsent)
        rw [numUsers_expel] at hcount
        omega
  · rintro ⟨hleg, g, hg, hga⟩
    obtain ⟨k₁, k₂, hk, hw⟩ := exists_without hg
    have hmem : g ∈ s.usersOf c := by rw [huse, hk]; simp
    refine ⟨_, (reqLeave_user_eq_ok_iff hf hu).mpr ⟨hleg, rfl⟩, ?_, ?_, ?_, ?_⟩
    · intro _
      exact ⟨k₁, g, k₂, huse.trans hk, hga, hafter.trans hw⟩
    · intro hno
      rw [hno g hmem] at hga
      cases hga
    · intro hgone
      have hnone : findChannel (s.afterLeave c usr.username chnl).channels c = none :=
        findChannel_eq_none_iff.mpr hgone
      rw [hfind, if_pos rfl] at hnone
      split at hnone
      · next h1 =>
        have hlen : chnl.entries.length = 1 := by
          rw [Channel.entries, chnl.connectedUsers.length_live,
            show chnl.connectedUsers.count = 1 from h1]
          rfl
        obtain ⟨e, he⟩ := List.length_eq_one_iff.mp hlen
        rw [huse, he, List.mem_singleton] at hmem
        exact ⟨e, by rw [huse, he], by rw [← hmem]; exact hga⟩
      · cases hnone
    · intro d hd
      rw [hfind, if_neg hd]

end Leave

open Three in
theorem leaveExact_crowd :
    ∃ s, Reachable (line.nbrAddrs 1) s ∧ (s.usersOf chnlX).length = 2 ∧
      ∃ s', (reqLeave s (client 2) chnlX).result = .ok s' ∧
        LeaveExact s s' (client 2) chnlX := by
  obtain ⟨s, hs, hp⟩ := exists_crowd (p := fun s => (s.usersOf chnlX).length = 2 ∧
    findUser s.allUsers (client 2) = some ⟨2, username 2, client 2⟩ ∧
    ∃ chnl ∈ findChannel s.channels chnlX,
      LeaveClean s (client 2) ⟨2, username 2, client 2⟩ chnl) (by decide)
  obtain ⟨hlen, hu, chnl, hf, hclean⟩ := of_decide_eq_true hp
  exact ⟨s, hs, hlen,
    (leaveExact_iff (line.nbrAddrs 1) s (client 2) chnlX _ chnl hs hu hf).mpr hclean⟩

open Three in
/-- A user leaves Common without having joined it: another user's entry goes. -/
theorem leave_takes_out_bystander :
    ¬ ∀ (addrs : List Sockaddr) (s : ServerState) (a : Sockaddr) (c : Name) (usr : User)
        (chnl : Channel), Reachable addrs s → findUser s.allUsers a = some usr →
        findChannel s.channels c = some chnl →
        ∃ s', (reqLeave s a c).result = .ok s' ∧ LeaveExact s s' a c := by
  intro h
  obtain ⟨s, hs, hp⟩ : ∃ s, Reachable [] s ∧
      decide (findUser s.allUsers (client 1) = some ⟨1, username 1, client 1⟩ ∧
        (∀ e ∈ s.usersOf common, isAt (client 1) e = false) ∧
        ∃ chnl ∈ findChannel s.channels common,
          ∀ s' ∈ (reqLeave s (client 1) common).result.toOption,
            findChannel s'.channels common ≠ findChannel s.channels common) = true :=
    exists_reachable_of_execute [enter 0, enter 1, ask 0 (.join common)] (by decide)
  obtain ⟨hu, hno, chnl, hf, hne⟩ := of_decide_eq_true hp
  obtain ⟨s', hr, hexact⟩ := h [] s (client 1) common _ chnl hs hu hf
  exact hne s' (by rw [hr]; rfl) (hexact.absent hno)

end DuckChat
