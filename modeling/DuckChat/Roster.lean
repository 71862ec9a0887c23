import DuckChat.Sound

/-!
# Who is in which channel

The entries of a channel are its roster. A handler that changes a roster reads it first, entry by
entry, and stops at the first one that cannot be read; `Legible` says when it gets through, and the
lemmas here say what is in the table then, without a disjunction for the way there.

## Main definitions

* `isNamed`, `isAt` — the two ways in which the program tells users apart
* `Legible` — a reading loop gets as far as its first hit
* `without`, `goes`, `Channel.expel` — what `remove_user` leaves, and what it takes out
* `ServerState.next` — one input, as a step function for runs

## Main results

* `removeUser_eq_ok_iff`, `reqLogout_eq_ok_iff`, `reqLeave_eq_ok_iff`, `reqLogin_eq_ok_iff`
* `rosters_of_react`, `users_of_react` — everything an input can do to a roster, and to the table
  of users
-/

set_option autoImplicit false

namespace DuckChat

/-! ### Rosters -/

/-- The entry of a user with a name. -/
abbrev isNamed (u : Username) : Option User → Bool := hasUser fun v => v.username == u

/-- The entry of a user with an address. -/
abbrev isAt (a : Sockaddr) : Option User → Bool := hasUser fun v => addrCmp v.address a

/-- A loop that tests the entries in order meets none that cannot be read, up to its first hit. -/
def Legible (heap : List User) (p : User → Bool) : List (Option User) → Prop
  | [] => True
  | e :: es => Readable heap e ∧ (hasUser p e = true ∨ Legible heap p es)

instance decidableLegible (heap : List User) (p : User → Bool) :
    ∀ es, Decidable (Legible heap p es)
  | [] => .isTrue trivial
  | e :: es =>
      have := decidableLegible heap p es
      inferInstanceAs (Decidable (Readable heap e ∧ (hasUser p e = true ∨ Legible heap p es)))

/-- `remove_user` under `usr->username` gets through the entries: with `usr` `NULL`, if there are
none. -/
def Removable (heap : List User) (usr : Option User) (es : List (Option User)) : Prop :=
  match usr with
  | some v => Legible heap (fun w => w.username == v.username) es
  | none => es = []

instance decidableRemovable (heap : List User) (es : List (Option User)) :
    ∀ usr, Decidable (Removable heap usr es)
  | some v => inferInstanceAs (Decidable (Legible heap (fun w => w.username == v.username) es))
  | none => inferInstanceAs (Decidable (es = []))

/-- What a removal by name leaves: the first entry with the name goes, or else the last entry. -/
def without (u : Username) (es : List (Option User)) : List (Option User) :=
  if es.any (isNamed u) then es.eraseP (isNamed u) else es.dropLast

/-- The entry that goes. -/
def goes (u : Username) (es : List (Option User)) : Option (Option User) :=
  (es.find? (isNamed u)).or es.getLast?

/-- What `remove_user` makes of a channel. -/
def Channel.expel (u : Username) (chnl : Channel) : Channel :=
  { chnl with connectedUsers := chnl.connectedUsers.remove fun _ => isNamed u }

section Rosters

variable {heap : List User} {p : User → Bool} {es : List (Option User)} {u : Username}
  {chnl chnl' : Channel} {a b : Sockaddr} {v : User}

@[simp] theorem isNamed_some : isNamed u (some v) = true ↔ v.username = u := by
  rw [isNamed, hasUser, beq_iff_eq]

@[simp] theorem isAt_some : isAt a (some v) = true ↔ v.address = a := by
  rw [isAt, hasUser, addrCmp_iff]

theorem legible_of_readable (h : ∀ e ∈ es, Readable heap e) : Legible heap p es := by
  induction es with
  | nil => trivial
  | cons e es ih =>
    exact ⟨h e List.mem_cons_self, Or.inr (ih fun x hx => h x (List.mem_cons_of_mem _ hx))⟩

/-- A loop without a hit reads everything. -/
theorem Legible.readable (h : Legible heap p es) (hno : ∀ e ∈ es, hasUser p e = false) :
    ∀ e ∈ es, Readable heap e := by
  induction es with
  | nil => simp
  | cons e es ih =>
    obtain ⟨he, hk⟩ := h
    have hrest : Legible heap p es := hk.resolve_left (by rw [hno e List.mem_cons_self]; simp)
    intro x hx
    rcases List.mem_cons.mp hx with rfl | hx
    · exact he
    · exact ih hrest (fun y hy => hno y (List.mem_cons_of_mem _ hy)) x hx

/-- The hit itself was read. -/
theorem Legible.readable_of_find? {e : Option User} (h : Legible heap p es)
    (hf : es.find? (hasUser p) = some e) : Readable heap e := by
  induction es with
  | nil => cases hf
  | cons x es ih =>
    obtain ⟨hx, hk⟩ := h
    by_cases hp : hasUser p x = true
    · rw [List.find?_cons_of_pos hp] at hf
      cases hf
      exact hx
    · rw [List.find?_cons_of_neg hp] at hf
      exact ih (hk.resolve_left hp) hf

theorem scan_eq_ok_iff {r : Option (Option User)} :
    scan (testUser heap p) es = .ok r ↔ Legible heap p es ∧ r = es.find? (hasUser p) := by
  induction es with
  | nil => simp [scan, Legible, eq_comm]
  | cons e es ih =>
    by_cases he : Readable heap e
    · rw [scan, testUser_of_readable he, Legible]
      cases hp : hasUser p e with
      | true => simp [he, hp, eq_comm]
      | false => simp [he, hp, ih]
    · have herr : ∃ f, testUser heap p e = .error f := by
        rw [testUser]
        cases hd : deref heap e with
        | error f => exact ⟨f, rfl⟩
        | ok x =>
          obtain ⟨rfl, hx⟩ := deref_eq_ok_iff.mp hd
          exact absurd ⟨x, hx, rfl⟩ he
      obtain ⟨f, hf⟩ := herr
      rw [scan, hf, Legible]
      simp [he]

/-- **`remove_user`**: it ends well when it can read as far as it reads. -/
theorem removeUser_eq_ok_iff {ret : Option (Option User)} :
    removeUser heap chnl u = .ok (ret, chnl') ↔
      Legible heap (fun v => v.username == u) chnl.entries ∧
        ret = chnl.entries.find? (isNamed u) ∧ chnl' = chnl.expel u := by
  rw [removeUser]
  cases hs : scan (testUser heap fun v => v.username == u) chnl.entries with
  | error f =>
    constructor
    · intro h; cases h
    · rintro ⟨hl, -⟩
      rw [scan_eq_ok_iff.mpr ⟨hl, rfl⟩] at hs
      cases hs
  | ok r =>
    obtain ⟨hl, rfl⟩ := scan_eq_ok_iff.mp hs
    constructor
    · intro h
      cases h
      exact ⟨hl, rfl, rfl⟩
    · rintro ⟨-, rfl, rfl⟩
      rfl

/-- A channel without entries has none to take out, whatever the name. -/
theorem expel_of_nil (h : chnl.entries = []) (u : Username) :
    chnl.expel u = { chnl with
      connectedUsers := chnl.connectedUsers.remove fun _ _ => false } := by
  have hlive : ∀ p : Option User → Bool, (chnl.connectedUsers.remove fun _ => p).live = [] := by
    intro p
    refine List.eq_nil_iff_forall_not_mem.mpr fun e he => ?_
    have hmem : e ∈ chnl.entries := Table.mem_of_mem_live_remove he
    rw [h] at hmem
    cases hmem
  have htable : chnl.connectedUsers.remove (fun _ => isNamed u) =
      chnl.connectedUsers.remove fun _ _ => false :=
    Table.ext ((hlive _).trans (hlive _).symm) rfl
  rw [Channel.expel, htable]

/-- The same under `usr->username`. With `usr` `NULL` it ends well on a channel without entries, and
then any name says what is left. -/
theorem removeUserOf_eq_ok_iff {usr : Option User} {ret : Option (Option User)} :
    removeUserOf heap chnl usr = .ok (ret, chnl') ↔
      Removable heap usr chnl.entries ∧
        ∃ u, (∀ w ∈ usr, w.username = u) ∧ ret = chnl.entries.find? (isNamed u) ∧
          chnl' = chnl.expel u := by
  cases usr with
  | some w =>
    simp only [removeUserOf, removeUser_eq_ok_iff, Removable, Option.mem_some_iff, forall_eq',
      exists_eq_left']
  | none =>
    cases hes : chnl.entries with
    | nil =>
      simp only [removeUserOf, hes, scan, Removable, true_and, Except.ok.injEq, Prod.mk.injEq,
        List.find?_nil, expel_of_nil hes]
      constructor
      · rintro ⟨rfl, rfl⟩
        exact ⟨⟨[], by simp, by decide⟩, by simp, rfl, rfl⟩
      · rintro ⟨-, -, rfl, rfl⟩
        exact ⟨rfl, rfl⟩
    | cons e es => simp [removeUserOf, hes, scan, Removable]

/-- The comparisons it makes can be made. -/
theorem Removable.legible {usr : Option User} (h : Removable heap usr es)
    (hu : ∀ w ∈ usr, w.username = u) : Legible heap (fun w => w.username == u) es := by
  cases usr with
  | some w =>
    rw [← hu w rfl]
    exact h
  | none =>
    rw [show es = [] from h]
    trivial

@[simp] theorem chnlName_expel : (chnl.expel u).chnlName = chnl.chnlName := rfl

@[simp] theorem numUsers_expel : (chnl.expel u).numUsers = chnl.numUsers - 1 := rfl

@[simp] theorem entries_expel : (chnl.expel u).entries = without u chnl.entries := by
  rw [without]
  split
  · next h =>
    obtain ⟨e, he, hp⟩ := List.any_eq_true.mp h
    exact Table.live_remove_of_mem he hp
  · next h =>
    refine Table.live_remove_of_forall_not fun e he => ?_
    rw [← Bool.not_eq_true]
    exact fun hp => h (List.any_eq_true.mpr ⟨e, he, hp⟩)

/-- The entry that goes stands somewhere in the roster, and the others stay in their order. -/
theorem exists_without {e : Option User} (h : goes u es = some e) :
    ∃ l₁ l₂, es = l₁ ++ e :: l₂ ∧ without u es = l₁ ++ l₂ := by
  rw [goes] at h
  cases hf : es.find? (isNamed u) with
  | some x =>
    rw [hf, Option.some_or] at h
    cases h
    obtain ⟨hp, l₁, l₂, rfl, hno⟩ := List.find?_eq_some_iff_append.mp hf
    refine ⟨l₁, l₂, rfl, ?_⟩
    rw [without, if_pos (List.any_eq_true.mpr ⟨e, by simp, hp⟩),
      List.eraseP_append_right _ fun x hx => by simpa using hno x hx, List.eraseP_cons_of_pos hp]
  | none =>
    rw [hf, Option.none_or] at h
    obtain ⟨l, rfl⟩ := List.getLast?_eq_some_iff.mp h
    refine ⟨l, [], rfl, ?_⟩
    rw [without, if_neg, List.dropLast_concat, List.append_nil]
    rw [List.any_eq_true]
    rintro ⟨x, hx, hp⟩
    exact List.find?_eq_none.mp hf x hx hp

/-- Some entry goes, unless there is none. -/
theorem exists_goes (u : Username) (h : es ≠ []) : ∃ e, goes u es = some e := by
  rw [goes]
  cases es.find? (isNamed u) with
  | some e => exact ⟨e, rfl⟩
  | none => exact ⟨_, List.getLast?_eq_some_getLast h⟩

@[simp] theorem without_nil : without u [] = [] := rfl

theorem length_without : (without u es).length = es.length - 1 := by
  by_cases h : es = []
  · rw [h, without_nil, List.length_nil]
  · obtain ⟨e, he⟩ := exists_goes u h
    obtain ⟨l₁, l₂, rfl, hw⟩ := exists_without he
    rw [hw, List.length_append, List.length_append, List.length_cons]
    omega

/-- A user whose name is new to the roster is the one that goes. -/
theorem without_concat (h : ∀ e ∈ es, isNamed u e = false) (hv : v.username = u) :
    without u (es ++ [some v]) = es := by
  have hp : isNamed u (some v) = true := isNamed_some.mpr hv
  rw [without, if_pos (List.any_eq_true.mpr ⟨some v, by simp, hp⟩), List.eraseP_append_right,
    List.eraseP_cons_of_pos hp, List.append_nil]
  intro x hx
  rw [h x hx]
  exact Bool.false_ne_true

/-- A user of the login's name makes room for the new one. -/
theorem without_concat_of_any (h : es.any (isNamed u) = true) :
    without u (es ++ [some v]) = es.eraseP (isNamed u) ++ [some v] := by
  obtain ⟨e, he, hp⟩ := List.any_eq_true.mp h
  rw [without, if_pos (List.any_eq_true.mpr ⟨e, List.mem_append_left _ he, hp⟩),
    List.eraseP_append_left hp _ he]

theorem without_sublist : (without u es).Sublist es := by
  rw [without]
  split
  · exact List.eraseP_sublist
  · exact List.dropLast_sublist es

end Rosters

/-! ### Handlers that change rosters -/

section Handlers

variable {s s' : ServerState} {a : Sockaddr} {c : Name} {u : Username} {now : ℤ}

/-- A roster with entries is that of a channel in the table. -/
theorem exists_find_of_usersOf (h : s.usersOf c ≠ []) :
    ∃ chnl, findChannel s.channels c = some chnl ∧ s.usersOf c = chnl.entries := by
  rw [ServerState.usersOf] at h ⊢
  split at h
  · next chnl hf => exact ⟨chnl, hf, rfl⟩
  · exact absurd rfl h

theorem logoutLoop_eq_ok_iff {heap : List User} {usr : User} {chnls chnls' : List Channel} :
    logoutLoop heap (some usr) chnls = .ok chnls' ↔
      (∀ chnl ∈ chnls, Legible heap (fun v => v.username == usr.username) chnl.entries) ∧
        chnls' = chnls.map (Channel.expel usr.username) := by
  induction chnls generalizing chnls' with
  | nil =>
    rw [logoutLoop]
    simp [eq_comm]
  | cons chnl chnls ih =>
    rw [logoutLoop, List.forall_mem_cons, List.map_cons, removeUserOf]
    cases hr : removeUser heap chnl usr.username with
    | error f =>
      constructor
      · intro h; cases h
      · rintro ⟨⟨hl, -⟩, -⟩
        rw [removeUser_eq_ok_iff.mpr ⟨hl, rfl, rfl⟩] at hr
        cases hr
    | ok r =>
      obtain ⟨hl, -, hx⟩ := removeUser_eq_ok_iff.mp hr
      cases hrest : logoutLoop heap (some usr) chnls with
      | error f =>
        constructor
        · intro h; cases h
        · rintro ⟨⟨-, hls⟩, -⟩
          rw [ih.mpr ⟨hls, rfl⟩] at hrest
          cases hrest
      | ok rest =>
        obtain ⟨hls, rfl⟩ := ih.mp hrest
        simp only [bind, Except.bind, pure, Except.pure, Except.ok.injEq, hx]
        constructor
        · rintro rfl
          exact ⟨⟨hl, hls⟩, rfl⟩
        · rintro ⟨-, rfl⟩
          rfl

/-- The state after the logout of a user with a name. -/
def ServerState.loggedOut (s : ServerState) (a : Sockaddr) (u : Username) : ServerState :=
  { s with
    channels := s.channels.overwrite (s.channels.live.map (Channel.expel u))
    allUsers := s.allUsers.remove fun _ v => addrCmp v.address a }

theorem channels_loggedOut :
    (s.loggedOut a u).channels.live = s.channels.live.map (Channel.expel u) :=
  Table.live_overwrite (List.length_map _)

theorem allUsers_loggedOut {usr : User} (hu : findUser s.allUsers a = some usr) :
    (s.loggedOut a u).allUsers.live = s.allUsers.live.eraseP fun v => addrCmp v.address a :=
  Table.live_remove_of_mem (List.mem_of_find?_eq_some hu)
    (addrCmp_iff.mpr (mem_heap_of_findUser hu).2)

/-- The user who logs out is taken out of the middle of the table. -/
theorem exists_eraseP_heap {usr : User} (hu : findUser s.allUsers a = some usr) :
    ∃ l₁ l₂, s.heap = l₁ ++ usr :: l₂ ∧
      (s.heap.eraseP fun v => addrCmp v.address a) = l₁ ++ l₂ := by
  obtain ⟨hp, l₁, l₂, hl, hno⟩ := List.find?_eq_some_iff_append.mp hu
  have hlive : s.heap = l₁ ++ usr :: l₂ := hl
  have hcons : ((usr :: l₂).eraseP fun v => addrCmp v.address a) = l₂ :=
    List.eraseP_cons_of_pos hp
  refine ⟨l₁, l₂, hlive, ?_⟩
  rw [hlive, List.eraseP_append_right, hcons]
  intro x hx
  rw [Bool.not_eq_true, ← Bool.not_eq_true']
  exact hno x hx

/-- **`REQ_LOGOUT`** goes through every channel in the table. -/
theorem reqLogout_eq_ok_iff :
    (reqLogout s a).result = .ok s' ↔
      ∃ usr, findUser s.allUsers a = some usr ∧
        (∀ chnl ∈ s.channels.live,
          Legible s.heap (fun v => v.username == usr.username) chnl.entries) ∧
        s' = s.loggedOut a usr.username := by
  rw [reqLogout, Emit.bind_eq_ok_iff]
  cases hu : findUser s.allUsers a with
  | none => simp
  | some usr =>
    simp only [Emit.lift_eq, logoutLoop_eq_ok_iff, Emit.pure_eq, Except.ok.injEq,
      Option.some.injEq, exists_eq_left']
    constructor
    · rintro ⟨chnls, ⟨hl, rfl⟩, rfl⟩
      exact ⟨hl, rfl⟩
    · rintro ⟨hl, rfl⟩
      exact ⟨_, ⟨hl, rfl⟩, rfl⟩

/-- The channel table after a leave of a user with a name from a channel. -/
def ServerState.afterLeave (s : ServerState) (c : Name) (u : Username) (chnl : Channel) :
    ServerState :=
  { s with
    channels :=
      if chnl.numUsers = 1 then removeChnl (storeChannel s.channels c (chnl.expel u)) c
      else storeChannel s.channels c (chnl.expel u) }

/-- **`REQ_LEAVE`** for a channel that is there. A requester who is not logged in gets through an
empty one. -/
theorem reqLeave_eq_ok_iff {chnl : Channel} (hf : findChannel s.channels c = some chnl) :
    (reqLeave s a c).result = .ok s' ↔
      Removable s.heap (findUser s.allUsers a) chnl.entries ∧
        ∃ u, (∀ usr ∈ findUser s.allUsers a, usr.username = u) ∧ s' = s.afterLeave c u chnl := by
  rw [reqLeave, hf]
  simp only [Emit.bind_eq_ok_iff, Emit.lift_eq, Prod.exists, removeUserOf_eq_ok_iff,
    ServerState.afterLeave]
  by_cases h1 : chnl.numUsers = 1
  · have h0 : ∀ u, (chnl.expel u).numUsers = 0 := fun u => by rw [numUsers_expel, h1]; rfl
    constructor
    · rintro ⟨ret, chnl', ⟨hl, u, hu, -, rfl⟩, h⟩
      rw [if_pos (h0 u)] at h
      cases h
      exact ⟨hl, u, hu, by rw [if_pos h1]⟩
    · rintro ⟨hl, u, hu, rfl⟩
      refine ⟨_, _, ⟨hl, u, hu, rfl, rfl⟩, ?_⟩
      rw [if_pos (h0 u), if_pos h1]
      rfl
  · have h0 : ∀ u, (chnl.expel u).numUsers ≠ 0 := fun u => by rw [numUsers_expel]; omega
    constructor
    · rintro ⟨ret, chnl', ⟨hl, u, hu, -, rfl⟩, h⟩
      rw [if_neg (h0 u)] at h
      cases h
      exact ⟨hl, u, hu, by rw [if_neg h1]⟩
    · rintro ⟨hl, u, hu, rfl⟩
      refine ⟨_, _, ⟨hl, u, hu, rfl, rfl⟩, ?_⟩
      rw [if_neg (h0 u), if_neg h1]
      rfl

/-- The leave of a user. -/
theorem reqLeave_user_eq_ok_iff {chnl : Channel} {usr : User}
    (hf : findChannel s.channels c = some chnl) (hu : findUser s.allUsers a = some usr) :
    (reqLeave s a c).result = .ok s' ↔
      Legible s.heap (fun v => v.username == usr.username) chnl.entries ∧
        s' = s.afterLeave c usr.username chnl := by
  simp only [reqLeave_eq_ok_iff hf, hu, Removable, Option.mem_some_iff, forall_eq',
    exists_eq_left']

/-- The channels after a leave, looked up: only the one that was left is another, and it is gone
if it had one user. -/
theorem findChannel_afterLeave {chnl : Channel} (hnd : s.names.Nodup)
    (hf : findChannel s.channels c = some chnl) (u : Username) (d : Name) :
    findChannel (s.afterLeave c u chnl).channels d =
      if d = c then if chnl.numUsers = 1 then none else some (chnl.expel u)
      else findChannel s.channels d := by
  have hn : (chnl.expel u).chnlName = c := (findChannel_some hf).2
  have hc : c ∈ chnlNames s.channels := mem_chnlNames_of_find hf
  have hnames : chnlNames (storeChannel s.channels c (chnl.expel u)) = s.names :=
    chnlNames_storeChannel hn
  have hin : c ∈ chnlNames (storeChannel s.channels c (chnl.expel u)) := by
    rw [hnames]
    exact hc
  simp only [ServerState.afterLeave]
  by_cases h1 : chnl.numUsers = 1
  · rw [if_pos h1, if_pos h1]
    split
    · next hd =>
      rw [hd, findChannel_eq_none_iff, chnlNames_removeChnl hin, hnames]
      exact hnd.not_mem_erase
    · next hd => rw [findChannel_removeChnl_of_ne hin hd, findChannel_storeChannel_of_ne hn hd]
  · rw [if_neg h1, if_neg h1]
    split
    · next hd => rw [hd, findChannel_storeChannel_self hn hc]
    · next hd => exact findChannel_storeChannel_of_ne hn hd

/-- The rosters after a leave. -/
theorem usersOf_afterLeave {chnl : Channel} (hnd : s.names.Nodup)
    (hf : findChannel s.channels c = some chnl) (u : Username) (d : Name) :
    (s.afterLeave c u chnl).usersOf d = if d = c then without u chnl.entries else s.usersOf d := by
  rw [ServerState.usersOf, findChannel_afterLeave hnd hf]
  by_cases hd : d = c
  · rw [if_pos hd, if_pos hd]
    by_cases h1 : chnl.numUsers = 1
    · have hlen : chnl.entries.length = 1 := by
        have hcount : chnl.connectedUsers.count = 1 := h1
        rw [Channel.entries, chnl.connectedUsers.length_live, hcount]
        rfl
      rw [if_pos h1]
      refine (List.length_eq_zero_iff.mp ?_).symm
      rw [length_without, hlen]
    · rw [if_neg h1]
      exact entries_expel
  · rw [if_neg hd, if_neg hd, ServerState.usersOf]

/-- A leave from a channel that is not empty keeps the tables as requests need them. -/
theorem Sound.afterLeave {chnl : Channel} (h : Sound s)
    (hf : findChannel s.channels c = some chnl) (hne : chnl.entries ≠ []) :
    Sound (s.afterLeave c u chnl) := by
  obtain ⟨e, he⟩ := List.exists_mem_of_ne_nil _ hne
  have hch := h.users chnl (findChannel_some hf).1
  have hpos : 0 < chnl.numUsers := Table.count_pos_of_mem he
  have hcount : 0 < s.channels.count := Table.count_pos_of_mem (findChannel_some hf).1
  have hexpel : (chnl.expel u).Sound s.heap := by
    refine ⟨by rw [numUsers_expel]; omega, fun x hx => hch.2 x ?_⟩
    rw [entries_expel] at hx
    exact without_sublist.subset hx
  have hst := Sound.storeChannel (c := c) h.users hexpel
  refine ⟨?_, h.allUsers, h.tables, fun ch hmem => ?_⟩
  · simp only [ServerState.afterLeave]
    split
    · show 0 ≤ (DuckChat.storeChannel s.channels c (chnl.expel u)).count - 1
      rw [count_storeChannel]
      omega
    · rw [count_storeChannel]
      exact h.channels
  · simp only [ServerState.afterLeave] at hmem
    split at hmem
    · exact hst ch (Table.mem_of_mem_live_remove (p := chnlCmp c) hmem)
    · exact hst ch hmem

theorem loginChannel_iff_legible {heap : List User} {usr : User} {chnl chnl' : Channel} :
    LoginChannel heap usr chnl chnl' ↔
      ∃ mid, addUser chnl (some usr) = .ok mid ∧
        Legible (usr :: heap) (fun v => v.username == usr.username) mid.entries ∧
        chnl' = mid.expel usr.username := by
  simp only [LoginChannel, createUser, removeUser_eq_ok_iff]
  constructor
  · rintro ⟨mid, _, hmid, hleg, -, hx⟩
    exact ⟨mid, hmid, hleg, hx⟩
  · rintro ⟨mid, hmid, hleg, hx⟩
    exact ⟨mid, _, hmid, hleg, rfl, hx⟩

/-- **`REQ_LOGIN`**: the new user goes into the first channel, the first user of its name goes out
of it, and the new one is appended to the users. -/
theorem reqLogin_eq_ok_iff :
    (reqLogin s a u).result = .ok s' ↔
      ∃ users, store s.allUsers ⟨s.heapNext, u, a⟩ = .ok users ∧
        ((s.channels.live = [] ∧ s' = { s with heapNext := s.heapNext + 1, allUsers := users }) ∨
          ∃ chnl chnls mid, s.channels.live = chnl :: chnls ∧
            addUser chnl (some ⟨s.heapNext, u, a⟩) = .ok mid ∧
            Legible (⟨s.heapNext, u, a⟩ :: s.heap) (fun v => v.username == u) mid.entries ∧
            s' = { s with
              heapNext := s.heapNext + 1
              allUsers := users
              channels := s.channels.overwrite (mid.expel u :: chnls) }) := by
  rw [reqLogin_iff]
  refine exists_congr fun users => and_congr_right fun _ => or_congr_right ?_
  simp only [loginChannel_iff_legible]
  constructor
  · rintro ⟨chnl, chnls, _, hl, ⟨mid, hmid, hleg, rfl⟩, hs⟩
    exact ⟨chnl, chnls, mid, hl, hmid, hleg, hs⟩
  · rintro ⟨chnl, chnls, mid, hl, hmid, hleg, hs⟩
    exact ⟨chnl, chnls, _, hl, ⟨mid, hmid, hleg, rfl⟩, hs⟩

end Handlers

/-! ### Says that end well -/

section Says

variable {s s' : ServerState} {heap : List User} {chnl : Channel} {a : Sockaddr} {c : Name}
  {t : SayText} {drawn : Id} {es : List (Option User)}

/-- The loop of `REQ_SAY` over a roster, when it ends well: the speaker is the first entry at the
requester's address, and each entry gets one text. -/
theorem sayLoop_ok (h : (sayLoop heap chnl a c t es).result = .ok ()) (hne : es ≠ []) :
    ∃ w, chnl.entries.find? (isAt a) = some (some w) ∧ w ∈ heap ∧
      (sayLoop heap chnl a c t es).out = textsTo es (.say c w.username t) := by
  induction es with
  | nil => exact absurd rfl hne
  | cons e es ih =>
    rw [sayLoop] at h ⊢
    obtain ⟨found, h₁, h⟩ := Emit.bind_eq_ok_iff.mp h
    obtain ⟨speaker, h₂, h⟩ := Emit.bind_eq_ok_iff.mp h
    obtain ⟨usr, h₃, h⟩ := Emit.bind_eq_ok_iff.mp h
    obtain ⟨⟨⟩, h₄, h₅⟩ := Emit.bind_eq_ok_iff.mp h
    obtain ⟨-, rfl⟩ := scan_eq_ok_iff.mp h₁
    have hfound : ∃ w, chnl.entries.find? (isAt a) = some (some w) ∧ w ∈ heap ∧ speaker = w := by
      cases hf : chnl.entries.find? (isAt a) with
      | none => rw [hf] at h₂; cases h₂
      | some x =>
        rw [hf] at h₂
        obtain ⟨rfl, hx⟩ := deref_eq_ok_iff.mp h₂
        exact ⟨speaker, rfl, hx, rfl⟩
    obtain ⟨w, hf, hw, rfl⟩ := hfound
    obtain ⟨rfl, -⟩ := deref_eq_ok_iff.mp h₃
    refine ⟨speaker, hf, hw, ?_⟩
    rw [Emit.out_bind_of_ok h₁, Emit.out_bind_of_ok h₂, Emit.out_bind_of_ok h₃,
      Emit.out_bind_of_ok h₄]
    have hrest : (sayLoop heap chnl a c t es).out = textsTo es (.say c speaker.username t) := by
      by_cases hes : es = []
      · rw [hes]
        rfl
      · obtain ⟨w', hf', -, ho⟩ := ih h₅ hes
        rw [hf] at hf'
        cases hf'
        exact ho
    rw [hrest]
    rfl

/-- **`REQ_SAY`**, when it ends well, for a channel that is there and not empty. -/
theorem reqSay_ok (h : (reqSay s a c t drawn).result = .ok s') :
    ∃ chnl usr, findChannel s.channels c = some chnl ∧ findUser s.allUsers a = some usr ∧
      (chnl.entries ≠ [] →
        ∃ w, chnl.entries.find? (isAt a) = some (some w) ∧ w ∈ s.heap ∧
          (reqSay s a c t drawn).out = textsTo chnl.entries (.say c w.username t) ++
            sayPackets s (s2sFillSay c usr.username t drawn)) ∧
      (chnl.entries = [] →
        (reqSay s a c t drawn).out = sayPackets s (s2sFillSay c usr.username t drawn)) := by
  rcases reqSay_cases s a c t drawn with ⟨f, hf, -⟩ | ⟨chnl, usr, ids, hf, hu, -, hl, -, ho⟩
  · rw [hf] at h
    cases h
  · refine ⟨chnl, usr, hf, hu, fun hne => ?_, fun hnil => ?_⟩
    · obtain ⟨w, hw, hwh, hout⟩ := sayLoop_ok hl hne
      exact ⟨w, hw, hwh, by rw [ho, hout]⟩
    · rw [ho, hnil]
      rfl

end Says

/-! ### All inputs at once -/

/-- One input, as a step. -/
def ServerState.next (s : ServerState) (i : Input) : Option ServerState :=
  (react s i).result.toOption

theorem next_eq_some_iff {s s' : ServerState} {i : Input} :
    s.next i = some s' ↔ (react s i).result = .ok s' := by
  rw [ServerState.next]
  cases (react s i).result with
  | error f => simp [Except.toOption]
  | ok t => simp [Except.toOption]

/-- The states of a run are reachable. -/
theorem Reachable.of_run {addrs : List Sockaddr} {ok : ServerState → Input → Prop}
    {s t : ServerState} {is : List Input} (hs : Reachable addrs s)
    (h : Run ServerState.next ok s is t) : Reachable addrs t :=
  h.invariant (fun _ _ _ hr _ hst => hr.step _ (next_eq_some_iff.mp hst)) hs

/-- A logout. -/
def Input.isLogout : Input → Bool
  | .datagram _ (.client .logout) _ _ => true
  | _ => false

/-- A login or a logout. -/
def Input.isSession : Input → Bool
  | .datagram _ (.client (.login _)) _ _ => true
  | .datagram _ (.client .logout) _ _ => true
  | _ => false

theorem Input.session_of_isQuiet {i : Input} (h : i.isQuiet = true) :
    i.isLogout = false ∧ i.isSession = false := by
  rcases i with ⟨a, (rq | m), drawn, now⟩ | now | now
  · cases rq <;> first | exact ⟨rfl, rfl⟩ | cases h
  · exact ⟨rfl, rfl⟩
  · cases h
  · cases h

/-- The roster of a channel after an input. -/
inductive RosterStep (s : ServerState) : Input → Name → List (Option User) → Prop where
  | kept {i : Input} {chnl : Channel} (h : chnl ∈ s.channels.live) (hi : i.isLogout = false) :
      RosterStep s i chnl.chnlName chnl.entries
  | created {i : Input} {c : Name} : RosterStep s i c []
  | joined {a : Sockaddr} {c : Name} {drawn : Id} {now : ℤ} :
      RosterStep s (.datagram a (.client (.join c)) drawn now) c
        (s.usersOf c ++ [findUser s.allUsers a])
  | left {a : Sockaddr} {c : Name} {drawn : Id} {now : ℤ} {chnl : Channel} {usr : User}
      (h : findChannel s.channels c = some chnl) (hu : findUser s.allUsers a = some usr) :
      RosterStep s (.datagram a (.client (.leave c)) drawn now) c
        (without usr.username chnl.entries)
  | loggedOut {a : Sockaddr} {drawn : Id} {now : ℤ} {chnl : Channel} {usr : User}
      (h : chnl ∈ s.channels.live) (hu : findUser s.allUsers a = some usr) :
      RosterStep s (.datagram a (.client .logout) drawn now) chnl.chnlName
        (without usr.username chnl.entries)
  | loggedIn {a : Sockaddr} {u : Username} {drawn : Id} {now : ℤ} {chnl : Channel}
      (h : s.channels.live.head? = some chnl)
      (hread : Legible (⟨s.heapNext, u, a⟩ :: s.heap) (fun v => v.username == u)
        (chnl.entries ++ [some ⟨s.heapNext, u, a⟩])) :
      RosterStep s (.datagram a (.client (.login u)) drawn now) chnl.chnlName
        (without u (chnl.entries ++ [some ⟨s.heapNext, u, a⟩]))

/-- The table of users after an input, and the next block. -/
inductive UsersStep (s : ServerState) : Input → List User → ℕ → Prop where
  | kept {i : Input} (hi : i.isSession = false) : UsersStep s i s.heap s.heapNext
  | loggedIn {a : Sockaddr} {u : Username} {drawn : Id} {now : ℤ} :
      UsersStep s (.datagram a (.client (.login u)) drawn now)
        (s.heap ++ [⟨s.heapNext, u, a⟩]) (s.heapNext + 1)
  | loggedOut {a : Sockaddr} {drawn : Id} {now : ℤ} {usr : User}
      (hu : findUser s.allUsers a = some usr) :
      UsersStep s (.datagram a (.client .logout) drawn now)
        (s.heap.eraseP fun v => addrCmp v.address a) s.heapNext

section Steps

variable {s s' : ServerState} {i : Input}

/-- A table of channels that did not change. -/
theorem RosterStep.of_channels (hc : s'.channels = s.channels) (hi : i.isLogout = false) :
    ∀ chnl ∈ s'.channels.live, RosterStep s i chnl.chnlName chnl.entries := by
  rw [hc]
  exact fun chnl hch => .kept hch hi

/-- A table of channels with one new, empty channel. -/
theorem RosterStep.of_addChnl {c : Name} {now : ℤ} {chnls : Table Channel MAX_USERS}
    (ha : addChnl s.channels c now = .ok chnls) (hi : i.isLogout = false) :
    ∀ chnl ∈ chnls.live, RosterStep s i chnl.chnlName chnl.entries := by
  intro chnl hch
  rw [(addChnl_eq_ok_iff.mp ha).2.2.1] at hch
  rcases List.mem_append.mp hch with hch | hch
  · exact .kept hch hi
  · rw [List.mem_singleton.mp hch]
    exact .created

theorem rosters_reqLogin {a : Sockaddr} {u : Username} {drawn : Id} {now : ℤ}
    (h : (reqLogin s a u).result = .ok s') :
    ∀ chnl ∈ s'.channels.live,
      RosterStep s (.datagram a (.client (.login u)) drawn now) chnl.chnlName chnl.entries := by
  obtain ⟨users, -, ⟨-, rfl⟩ | ⟨chnl, chnls, mid, hl, hm, hread, rfl⟩⟩ := reqLogin_eq_ok_iff.mp h
  · exact RosterStep.of_channels rfl rfl
  · obtain ⟨-, -, hes, -, hn, -⟩ := addUser_eq_ok_iff.mp hm
    rw [hes] at hread
    intro ch hch
    have hlive : (s.channels.overwrite (mid.expel u :: chnls)).live = mid.expel u :: chnls :=
      Table.live_overwrite (by rw [hl]; rfl)
    rw [hlive] at hch
    rcases List.mem_cons.mp hch with rfl | hch
    · rw [entries_expel, hes, chnlName_expel, hn]
      exact .loggedIn (by rw [hl]; rfl) hread
    · exact .kept (by rw [hl]; exact List.mem_cons_of_mem _ hch) rfl

theorem rosters_reqJoin {a : Sockaddr} {c : Name} {drawn : Id} {now : ℤ}
    (h : (reqJoin s a c now).result = .ok s') :
    ∀ chnl ∈ s'.channels.live,
      RosterStep s (.datagram a (.client (.join c)) drawn now) chnl.chnlName chnl.entries := by
  obtain ⟨-, -, -, -, chnls, chnl, chnl', hk, hadd, hc⟩ := reqJoin_ok h
  obtain ⟨-, -, hes, -, hn, -⟩ := addUser_eq_ok_iff.mp hadd
  intro ch hch
  rw [hc, live_storeChannel] at hch
  rcases mem_replaceFirst hch with rfl | hch
  · rcases hk with ⟨hf, -⟩ | ⟨hf, rfl, -⟩
    · have huse : s.usersOf c = chnl.entries := by rw [ServerState.usersOf, hf]
      rw [hes, hn, (findChannel_some hf).2, ← huse]
      exact .joined
    · have huse : s.usersOf c = [] := by rw [ServerState.usersOf, hf]
      have hnil : (createChannel c now).entries = s.usersOf c := huse.symm
      rw [hes, hn, hnil]
      exact .joined
  · rcases hk with ⟨-, rfl⟩ | ⟨-, -, ht⟩
    · exact .kept hch rfl
    · exact RosterStep.of_addChnl ht rfl ch hch

theorem rosters_reqLeave {a : Sockaddr} {c : Name} {drawn : Id} {now : ℤ}
    (h : (reqLeave s a c).result = .ok s') :
    ∀ chnl ∈ s'.channels.live,
      RosterStep s (.datagram a (.client (.leave c)) drawn now) chnl.chnlName chnl.entries := by
  cases hf : findChannel s.channels c with
  | none =>
    have he : (reqLeave s a c).result = .ok s := by rw [reqLeave, hf]; rfl
    rw [he] at h
    cases h
    exact RosterStep.of_channels rfl rfl
  | some chnl =>
    obtain ⟨hgoes, u, hname, rfl⟩ := (reqLeave_eq_ok_iff hf).mp h
    have hst : ∀ ch ∈ (storeChannel s.channels c (chnl.expel u)).live,
        RosterStep s (.datagram a (.client (.leave c)) drawn now) ch.chnlName ch.entries := by
      intro ch hch
      rw [live_storeChannel] at hch
      rcases mem_replaceFirst hch with rfl | hch
      · cases hu : findUser s.allUsers a with
        | some usr =>
          obtain rfl := hname usr hu
          rw [entries_expel, chnlName_expel, (findChannel_some hf).2]
          exact .left hf hu
        | none =>
          -- an empty roster, and it stays so
          rw [hu] at hgoes
          have hnil : chnl.entries = [] := hgoes
          rw [entries_expel, chnlName_expel, hnil, without_nil, ← hnil]
          exact .kept (findChannel_some hf).1 rfl
      · exact .kept hch rfl
    intro ch hch
    simp only [ServerState.afterLeave] at hch
    split at hch
    · exact hst ch (Table.mem_of_mem_live_remove (p := chnlCmp c) hch)
    · exact hst ch hch

/-- **What an input can do to a roster.** -/
theorem rosters_of_react (h : (react s i).result = .ok s') :
    ∀ chnl ∈ s'.channels.live, RosterStep s i chnl.chnlName chnl.entries := by
  cases outcome_of_react h with
  | login h => exact rosters_reqLogin h
  | logout h =>
    obtain ⟨usr, hu, -, rfl⟩ := reqLogout_eq_ok_iff.mp h
    intro ch hch
    rw [channels_loggedOut] at hch
    obtain ⟨chnl, hl, rfl⟩ := List.mem_map.mp hch
    rw [entries_expel]
    exact .loggedOut hl hu
  | join h => exact rosters_reqJoin h
  | leave h => exact rosters_reqLeave h
  | servJoin h =>
    obtain ⟨_, _, chnls, -, -, ⟨-, rfl⟩ | ⟨-, hadd⟩, rfl⟩ := reqServJoin_ok h
    · exact RosterStep.of_channels rfl rfl
    · exact RosterStep.of_addChnl hadd rfl
  | servLeave h => exact RosterStep.of_channels (reqServLeave_ok h).1 rfl
  | timeouts h => exact RosterStep.of_channels (timeoutScan_ok h).2.2.1 rfl
  | renewal h =>
    obtain ⟨-, -, -, -, -, hm⟩ := renewalPass_ok h
    intro ch hch
    obtain ⟨old, hold, heq⟩ := List.mem_map.mp (hm ▸ List.mem_map_of_mem hch)
    have hn : ch.chnlName = old.chnlName := (congrArg Prod.fst heq).symm
    have hes : ch.entries = old.entries := (congrArg (fun x => x.2.live) heq).symm
    rw [hn, hes]
    exact .kept hold rfl
  | recorded hq => exact RosterStep.of_channels rfl (Input.session_of_isQuiet hq).1
  | idle hq => exact RosterStep.of_channels rfl (Input.session_of_isQuiet hq).1

/-- **What an input can do to the users.** -/
theorem users_of_react (h : (react s i).result = .ok s') :
    UsersStep s i s'.heap s'.heapNext := by
  have of_eq : ∀ {t : ServerState}, t.allUsers = s.allUsers → t.heapNext = s.heapNext →
      i.isSession = false → UsersStep s i t.heap t.heapNext := by
    intro t hu hn hi
    rw [ServerState.heap, hu, hn]
    exact .kept hi
  cases outcome_of_react h with
  | login h =>
    obtain ⟨-, -, hn, hst, -⟩ := reqLogin_ok h
    rw [ServerState.heap, (store_eq_ok_iff.mp hst).2.2.1, hn]
    exact .loggedIn
  | logout h =>
    obtain ⟨usr, hu, -, rfl⟩ := reqLogout_eq_ok_iff.mp h
    rw [ServerState.heap, allUsers_loggedOut hu]
    exact .loggedOut hu
  | join h =>
    obtain ⟨-, -, hu, hn, -⟩ := reqJoin_ok h
    exact of_eq hu hn rfl
  | leave h =>
    obtain ⟨_, rfl⟩ := channels_of_reqLeave h
    exact of_eq rfl rfl rfl
  | servJoin h =>
    obtain ⟨_, _, _, -, -, -, rfl⟩ := reqServJoin_ok h
    exact of_eq rfl rfl rfl
  | servLeave h =>
    obtain ⟨_, -, -, rfl⟩ := exists_of_reqServLeave h
    exact of_eq rfl rfl rfl
  | timeouts h =>
    obtain ⟨srvs, -, h⟩ := Emit.bind_eq_ok_iff.mp h
    cases h
    exact of_eq rfl rfl rfl
  | renewal h =>
    have hu := (renewalPass_ok h).2.2.2.1
    rw [renewalPass] at h
    split at h
    · cases h
      exact of_eq rfl rfl rfl
    · obtain ⟨chnls, -, h⟩ := Emit.bind_eq_ok_iff.mp h
      cases h
      exact of_eq rfl rfl rfl
  | recorded hq => exact of_eq rfl rfl (Input.session_of_isQuiet hq).2
  | idle hq => exact of_eq rfl rfl (Input.session_of_isQuiet hq).2

/-- The next block is none of those that any table points to. -/
theorem Reachable.fresh {addrs : List Sockaddr} (h : Reachable addrs s) :
    (∀ v ∈ s.heap, v.ptr < s.heapNext) ∧
      ∀ chnl ∈ s.channels.live, ∀ v, some v ∈ chnl.entries → v.ptr < s.heapNext := by
  induction h with
  | start unset now =>
    refine ⟨fun v hv => absurd hv List.not_mem_nil, fun chnl hch v hv => ?_⟩
    rw [List.mem_singleton.mp hch] at hv
    exact absurd hv List.not_mem_nil
  | @step s s' i _ hr ih =>
    obtain ⟨husers, hentries⟩ := ih
    have hstep := users_of_react hr
    generalize s'.heap = heap' at hstep ⊢
    generalize s'.heapNext = next' at hstep ⊢
    have hmono : s.heapNext ≤ next' := by
      cases hstep with
      | kept => exact Nat.le_refl _
      | loggedIn => exact Nat.le_succ _
      | loggedOut => exact Nat.le_refl _
    refine ⟨fun v hv => ?_, fun chnl hch v hv => ?_⟩
    · cases hstep with
      | kept => exact husers v hv
      | loggedIn =>
        rcases List.mem_append.mp hv with hv | hv
        · have := husers v hv
          omega
        · rw [List.mem_singleton.mp hv]
          exact Nat.lt_succ_self _
      | loggedOut => exact husers v (List.mem_of_mem_eraseP hv)
    · have hroster := rosters_of_react hr chnl hch
      generalize chnl.chnlName = n at hroster
      generalize chnl.entries = es at hroster hv
      cases hroster with
      | kept hk => exact Nat.lt_of_lt_of_le (hentries _ hk v hv) hmono
      | created => exact absurd hv List.not_mem_nil
      | joined =>
        refine Nat.lt_of_lt_of_le ?_ hmono
        rcases List.mem_append.mp hv with hv | hv
        · rw [ServerState.usersOf] at hv
          split at hv
          · next ch hf => exact hentries ch (findChannel_some hf).1 v hv
          · exact absurd hv List.not_mem_nil
        · exact husers v (mem_heap_of_findUser (List.mem_singleton.mp hv).symm).1
      | left hf =>
        exact Nat.lt_of_lt_of_le
          (hentries _ (findChannel_some hf).1 v (without_sublist.subset hv)) hmono
      | loggedOut hk => exact Nat.lt_of_lt_of_le (hentries _ hk v (without_sublist.subset hv)) hmono
      | loggedIn hk =>
        cases hstep with
        | kept hi => cases hi
        | loggedIn =>
          rcases List.mem_append.mp (without_sublist.subset hv) with hv | hv
          · have := hentries _ (List.mem_of_mem_head? hk) v hv
            omega
          · cases List.mem_singleton.mp hv
            exact Nat.lt_succ_self _

/-- No user is in the table twice: each login has a block of its own. -/
theorem Reachable.nodup_heap {addrs : List Sockaddr} (h : Reachable addrs s) : s.heap.Nodup := by
  induction h with
  | start unset now => exact List.nodup_nil
  | @step s s' i hs hr ih =>
    have hstep := users_of_react hr
    generalize s'.heap = heap' at hstep ⊢
    generalize s'.heapNext = next' at hstep
    cases hstep with
    | kept => exact ih
    | loggedIn =>
      refine List.nodup_append'.mpr ⟨ih, List.nodup_singleton _, ?_⟩
      rw [List.disjoint_singleton]
      exact fun hmem => Nat.lt_irrefl _ (hs.fresh.1 _ hmem)
    | loggedOut => exact ih.sublist List.eraseP_sublist

end Steps

/-! ### Runs of one server on concrete inputs -/

namespace Three

/-- A server without neighbours. -/
def alone : ServerState := ServerState.start [] 0 0

/-- A request of a client at time 0. -/
def ask (i : Fin 3) (rq : ClientRequest) : Input := .datagram (client i) (.client rq) 0 0

/-- A client logs in under its name. -/
def enter (i : Fin 3) : Input := ask i (.login (username i))

/-- A third channel. -/
def chnlY : Name := ⟨ascii "Y", by decide, by decide⟩

/-- In the middle of the line all three clients come in, to two channels, and each neighbour joins
another one. -/
def crowd : List Input :=
  [enter 0, ask 0 (.join common), enter 1, ask 1 (.join common), ask 1 (.join chnlX), enter 2,
    ask 2 (.join chnlX), .datagram (addr 0) (.s2s (.join chnlX)) 0 5,
    .datagram (addr 2) (.s2s (.join chnlY)) 0 5]

end Three

/-- A state with a property, reached from the start by inputs that are evaluated. -/
theorem exists_reachable_of_execute (is : List Input) {p : ServerState → Bool}
    (h : (execute ServerState.next (fun _ _ => True) Three.alone is).any p = true) :
    ∃ s, Reachable [] s ∧ p s = true := by
  obtain ⟨s, hr, hp⟩ := exists_run_of_execute h
  exact ⟨s, Reachable.of_run (.start 0 0) hr, hp⟩

open Three in
/-- The same for what the crowd makes of the middle of the line. -/
theorem exists_crowd {p : ServerState → Bool}
    (h : (execute ServerState.next (fun _ _ => True) (ServerState.start (line.nbrAddrs 1) 0 0)
      crowd).any p = true) :
    ∃ s, Reachable (line.nbrAddrs 1) s ∧ p s = true := by
  obtain ⟨s, hr, hp⟩ := exists_run_of_execute h
  exact ⟨s, Reachable.of_run (.start 0 0) hr, hp⟩

end DuckChat
