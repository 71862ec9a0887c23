import DuckChat.Client
import DuckChat.Lib.InPlace

/-!
# Four loops that remove an element

`remove_user`, `neat_remove`, `case REQ_LEAVE` of the client and `case REQ_LOGOUT` of the server
each take an element out of an array with a loop of their own. Elsewhere in the model all four are
`Table.remove`; here they are what the source has, store by store, on arrays whose slots behind the
elements hold anything. A slot holds a pointer or a string, or it is `NULL` or unset, and then
nothing is read through it.

They differ in what they leave in the slot that becomes free, in what they do when nothing is found,
and in where they start. For a key that occurs they are the same.

## Main definitions

* `removeUserSlots`, `neatRemoveSlots`, `leaveSlots`, `logoutSlots` — the four loops
* `RemovesFirst` — the first match is gone, and everything else is as it was

## Main results

* `removals_agree` — every list and every key that occurs in it
* `removeUserSlots_refines`, `neatRemoveSlots_refines`, `leaveSlots_refines`,
  `logoutSlots_refines` — on the arrays of the model's tables the loops are its removals
-/

set_option autoImplicit false

namespace DuckChat

/-! ### The loops -/

/-- What a loop returns, the array it leaves, and the counter. -/
structure Removal (β : Type) where
  ret : Option β
  list : List β
  count : ℤ

/-- A test of what a slot holds. -/
def testSlot {α : Type} (f : Fault) (p : α → Bool) : Option α → Except Fault Bool
  | none => .error f
  | some x => .ok (p x)

/-- `remove_user`. The slot that was moved is cleared. -/
def removeUserSlots (heap : List User) (connectedUsers : List (Option User)) (numUsers : ℤ)
    (username : Username) : Except Fault (Removal (Option User)) := do
  let (ret, connectedUsers) ←
    moveLoop .read (some none) (fun _ => testUser heap fun u => u.username == username)
      numUsers.toNat 0 false none connectedUsers
  pure ⟨ret, connectedUsers, numUsers - 1⟩

/-- The condition in `neat_remove`: with a position the comparator is not called. -/
def neatHit {α : Type} (cmp : α → Bool) (pos : Option ℤ) (i : ℕ) (x : Option α) :
    Except Fault Bool :=
  match pos with
  | none => testSlot .null cmp x
  | some p => .ok (p == i)

/-- `neat_remove`. The slot behind the elements is cleared, whatever was found. -/
def neatRemoveSlots {α : Type} (list : List (Option α)) (listLen : ℤ) (cmp : α → Bool)
    (pos : Option ℤ) : Except Fault (Removal (Option α)) := do
  let (ret, list) ← moveLoop .read none (neatHit cmp pos) listLen.toNat 0 false none list
  let list ← setSlot (.store .above) list listLen.toNat none
  pure ⟨ret, list, listLen - 1⟩

/-- The loop of `case REQ_LEAVE`, and the counter behind it. What it returns is `leave_chnl`. -/
def leaveSlots (joinedChnls : List (Option Name)) (joinedLen : ℤ) (chnl : Name) :
    Except Fault (Removal (Option Name)) := do
  let (leaveChnl, joinedChnls) ←
    moveLoop .read none (fun _ => testSlot .read (· == chnl)) joinedLen.toNat 0 false none
      joinedChnls
  pure ⟨leaveChnl, joinedChnls, if leaveChnl.isSome then joinedLen - 1 else joinedLen⟩

/-- The shift of `case REQ_LOGOUT`, from the position that `find_user` reports. What it returns is
the user that was found. -/
def logoutSlots (heap : List User) (allUsers : List (Option User)) (numUsers : ℤ)
    (clientAddr : Sockaddr) : Except Fault (Removal (Option User)) := do
  let found ← searchLoop .read (testUser heap fun u => addrCmp u.address clientAddr)
    numUsers.toNat 0 allUsers
  let uPos ← nonNull found
  let usr ← getSlot .read allUsers uPos
  let allUsers ← shiftDown .read (numUsers - 1 - uPos).toNat uPos allUsers
  pure ⟨some usr, allUsers, numUsers - 1⟩

/-! ### What they are for -/

/-- The loop ends well and returns the first element that matches; in front of the counter are the
others in their order; and the counter is one smaller. -/
def RemovesFirst {α : Type} (p : α → Bool) (xs : List α)
    (r : Except Fault (Removal (Option α))) : Prop :=
  ∃ x list n, r = .ok ⟨some (some x), list, n⟩ ∧ xs.find? p = some x ∧
    list.take n.toNat = (xs.eraseP p).map some ∧ n = xs.length - 1

section Rules

variable {α : Type} {p : α → Bool} {l r xs : List α} {x : α} {rest : List (Option α)}

/-- The form in which a loop leaves its array. -/
theorem removesFirst_of_eq {res : Except Fault (Removal (Option α))} {n : ℤ} {v : Option α}
    (hl : ∀ y ∈ l, p y = false) (hx : p x = true) (hn : n + 1 = (l ++ x :: r).length)
    (h : res = .ok ⟨some (some x), (l ++ r).map some ++ v :: rest, n⟩) :
    RemovesFirst p (l ++ x :: r) res := by
  have hnone : ∀ y ∈ l, ¬ p y = true := fun y hy => ne_true_of_eq_false (hl y hy)
  refine ⟨x, _, n, h, ?_, ?_, by omega⟩
  · rw [List.find?_append, List.find?_eq_none.mpr hnone, Option.none_or, List.find?_cons_of_pos hx]
  · have hlen : n.toNat = ((l ++ r).map some).length := by
      simp only [List.length_map, List.length_append, List.length_cons] at hn ⊢
      omega
    rw [hlen, List.take_left, List.eraseP_append_right _ hnone, List.eraseP_cons_of_pos hx]

/-- An element that matches, and the first one that does. -/
theorem exists_split (h : ∃ x ∈ xs, p x = true) :
    ∃ l x r, xs = l ++ x :: r ∧ (∀ y ∈ l, p y = false) ∧ p x = true := by
  obtain ⟨x, hx, hp⟩ := h
  obtain ⟨x, l, r, hl, hp, hxs, -⟩ := List.exists_of_eraseP hx hp
  exact ⟨l, x, r, hxs, fun y hy => by simpa using hl y hy, hp⟩

/-- **A loop with a flag** on slots that hold elements, with a test that says on each of them
whether it matches. -/
theorem exists_moveLoop (clear : Option (Option α)) {hit : ℕ → Option α → Except Fault Bool}
    (hl : ∀ y ∈ l, p y = false) (hx : p x = true)
    (htest : ∀ k y, (l ++ [x])[k]? = some y → hit k (some y) = .ok (p y))
    (rest : List (Option α)) :
    ∃ v, moveLoop .read clear hit ((l ++ x :: r).length : ℤ).toNat 0 false none
        ((l ++ x :: r).map some ++ rest) =
      .ok (some (some x), (l ++ r).map some ++ v :: rest) := by
  have hnot : ∀ k y, (l.map some)[k]? = some y → hit k y = .ok false := by
    intro k y hy
    rw [List.getElem?_map, Option.map_eq_some_iff] at hy
    obtain ⟨z, hz, rfl⟩ := hy
    have hlt := (List.getElem?_eq_some_iff.mp hz).1
    rw [htest k z (by rw [List.getElem?_append_left hlt, hz]), hl z (List.mem_of_getElem? hz)]
  have hfirst : hit (l.map some).length (some x) = .ok true := by
    rw [List.length_map, htest l.length x (by simp), hx]
  obtain ⟨v, hv⟩ : ∃ v, moveLoop .read clear hit (l.map some ++ some x :: r.map some).length 0 false
      none (l.map some ++ some x :: r.map some ++ rest) =
        .ok (some (some x), l.map some ++ r.map some ++ v :: rest) :=
    moveLoop_hit .read clear none hnot hfirst
  refine ⟨v, ?_⟩
  rw [Int.toNat_natCast]
  simpa using hv

theorem removeUserSlots_removes (users others : List User) (rest : List (Option User))
    {username : Username} (h : ∃ u ∈ users, u.username = username) :
    RemovesFirst (fun u => u.username == username) users
      (removeUserSlots (users ++ others) (users.map some ++ rest) users.length username) := by
  obtain ⟨l, u, r, rfl, hl, hu⟩ := exists_split (p := fun u : User => u.username == username)
    (by simpa using h)
  have htest : ∀ (k : ℕ) (v : User), (l ++ [u])[k]? = some v → testUser (l ++ u :: r ++ others)
      (fun u => u.username == username) (some v) = .ok (v.username == username) := by
    intro k v hk
    have hmem : v ∈ l ++ u :: r := by
      have := List.mem_of_getElem? hk
      simp only [List.mem_append, List.mem_cons] at this ⊢
      tauto
    exact testUser_of_readable ⟨v, List.mem_append_left _ hmem, rfl⟩
  obtain ⟨v, hv⟩ := exists_moveLoop (some none) hl hu htest rest
  have hres : removeUserSlots (l ++ u :: r ++ others) ((l ++ u :: r).map some ++ rest)
      (l ++ u :: r).length username =
        .ok ⟨some (some u), (l ++ r).map some ++ v :: rest, (l ++ u :: r).length - 1⟩ := by
    rw [removeUserSlots, hv]
    rfl
  exact removesFirst_of_eq hl hu (by omega) hres

/-- A slot to spare behind the elements is what the last store of `neat_remove` needs. -/
theorem neatRemoveSlots_eq {cmp : α → Bool} {pos : Option ℤ}
    (hl : ∀ y ∈ l, p y = false) (hx : p x = true)
    (htest : ∀ k y, (l ++ [x])[k]? = some y → neatHit cmp pos k (some y) = .ok (p y))
    (spare : Option α) (rest : List (Option α)) :
    RemovesFirst p (l ++ x :: r)
      (neatRemoveSlots ((l ++ x :: r).map some ++ spare :: rest) (l ++ x :: r).length cmp pos) := by
  obtain ⟨v, hv⟩ := exists_moveLoop none hl hx htest (r := r) (spare :: rest)
  have hlen : ((l ++ r).map some ++ [v]).length = (l ++ x :: r).length := by
    simp only [List.length_append, List.length_map, List.length_cons, List.length_nil]
    omega
  have hlast : setSlot (Fault.store .above) ((l ++ r).map some ++ [v] ++ spare :: rest)
      (l ++ x :: r).length none = .ok ((l ++ r).map some ++ [v] ++ none :: rest) := by
    rw [← hlen, setSlot_append]
  have hres : neatRemoveSlots ((l ++ x :: r).map some ++ spare :: rest) (l ++ x :: r).length cmp
      pos = .ok ⟨some (some x), (l ++ r).map some ++ v :: none :: rest,
        (l ++ x :: r).length - 1⟩ := by
    rw [List.append_assoc, List.append_assoc] at hlast
    rw [neatRemoveSlots, hv]
    simp only [ok_bind, Int.toNat_natCast]
    rw [show v :: spare :: rest = [v] ++ spare :: rest from rfl, hlast]
    rfl
  exact removesFirst_of_eq hl hx (by omega) hres

theorem neatRemoveSlots_removes {cmp : α → Bool} (spare : Option α) (rest : List (Option α))
    (h : ∃ x ∈ xs, cmp x = true) :
    RemovesFirst cmp xs (neatRemoveSlots (xs.map some ++ spare :: rest) xs.length cmp none) := by
  obtain ⟨l, x, r, rfl, hl, hx⟩ := exists_split h
  exact neatRemoveSlots_eq hl hx (fun k y _ => rfl) spare rest

/-- With the position of the first match no comparison is made. -/
theorem neatRemoveSlots_removes_at {cmp : α → Bool} (cmp' : α → Bool) (spare : Option α)
    (rest : List (Option α)) (h : ∃ x ∈ xs, cmp x = true) :
    RemovesFirst cmp xs
      (neatRemoveSlots (xs.map some ++ spare :: rest) xs.length cmp' (some (xs.findIdx cmp))) := by
  obtain ⟨l, x, r, rfl, hl, hx⟩ := exists_split h
  have hidx : (l ++ x :: r).findIdx cmp = l.length := by
    rw [List.findIdx_append, List.findIdx_eq_length.mpr hl, if_neg (Nat.lt_irrefl _),
      List.findIdx_cons, hx]
    exact Nat.zero_add _
  refine neatRemoveSlots_eq hl hx (fun k y hk => ?_) spare rest
  rw [neatHit, hidx, Except.ok.injEq]
  by_cases hlt : k < l.length
  · rw [List.getElem?_append_left hlt] at hk
    rw [hl y (List.mem_of_getElem? hk), beq_eq_false_iff_ne]
    omega
  · have hk' := (List.getElem?_eq_some_iff.mp hk).1
    rw [List.length_append, List.length_singleton] at hk'
    have heq : k = l.length := by omega
    subst heq
    have hxy : x = y := by simpa using hk
    rw [← hxy, hx, beq_self_eq_true]

theorem leaveSlots_removes (names : List Name) (rest : List (Option Name)) {chnl : Name}
    (h : chnl ∈ names) :
    RemovesFirst (· == chnl) names (leaveSlots (names.map some ++ rest) names.length chnl) := by
  obtain ⟨l, x, r, rfl, hl, hx⟩ := exists_split (p := (· == chnl)) ⟨chnl, h, beq_self_eq_true _⟩
  obtain ⟨v, hv⟩ : ∃ v, moveLoop Fault.read none (fun _ => testSlot .read (· == chnl))
      ((l ++ x :: r).length : ℤ).toNat 0 false none ((l ++ x :: r).map some ++ rest) =
        .ok (some (some x), (l ++ r).map some ++ v :: rest) :=
    exists_moveLoop none hl hx (fun k y _ => rfl) rest
  have hres : leaveSlots ((l ++ x :: r).map some ++ rest) (l ++ x :: r).length chnl =
      .ok ⟨some (some x), (l ++ r).map some ++ v :: rest, (l ++ x :: r).length - 1⟩ := by
    rw [leaveSlots, hv]
    rfl
  exact removesFirst_of_eq hl hx (by omega) hres

/-- **A search** of slots that hold elements. -/
theorem searchLoop_slots {hit : Option α → Except Fault Bool}
    (hl : ∀ y ∈ l, p y = false) (hx : p x = true)
    (htest : ∀ y ∈ l ++ [x], hit (some y) = .ok (p y)) (rest : List (Option α)) :
    searchLoop Fault.read hit ((l ++ x :: r).length : ℤ).toNat 0 ((l ++ x :: r).map some ++ rest) =
      .ok (some l.length) := by
  have h : searchLoop Fault.read hit (l ++ x :: r).length 0
      (l.map some ++ some x :: (r.map some ++ rest)) = .ok (some (l.map some).length) :=
    searchLoop_hit Fault.read
      (fun e he => by
        obtain ⟨y, hy, rfl⟩ := List.mem_map.mp he
        rw [htest y (List.mem_append_left _ hy), hl y hy])
      (by rw [htest x (by simp), hx])
      (by rw [List.length_map, List.length_append, List.length_cons]; omega)
  rw [Int.toNat_natCast]
  simpa using h

/-- **The shift** from the position of an element. -/
theorem exists_shiftDown_slots (l r : List α) (x : α) (rest : List (Option α)) :
    ∃ v, shiftDown Fault.read (((l ++ x :: r).length : ℤ) - 1 - l.length).toNat l.length
        ((l ++ x :: r).map some ++ rest) = .ok ((l ++ r).map some ++ v :: rest) := by
  obtain ⟨v, hv⟩ : ∃ v, shiftDown Fault.read (r.map some).length (l.map some).length
      (l.map some ++ some x :: r.map some ++ rest) =
        .ok (l.map some ++ r.map some ++ v :: rest) := shiftDown_hit Fault.read
  have hturns : (((l ++ x :: r).length : ℤ) - 1 - l.length).toNat = r.length := by
    rw [List.length_append, List.length_cons]
    omega
  refine ⟨v, ?_⟩
  rw [hturns]
  simpa using hv

theorem getSlot_slots (l r : List α) (x : α) (rest : List (Option α)) :
    getSlot Fault.read ((l ++ x :: r).map some ++ rest) l.length = .ok (some x) := by
  have h : getSlot Fault.read (l.map some ++ some x :: (r.map some ++ rest))
      (l.map some).length = .ok (some x) := getSlot_append
  simpa using h

theorem logoutSlots_removes (users others : List User) (rest : List (Option User))
    {clientAddr : Sockaddr} (h : ∃ u ∈ users, u.address = clientAddr) :
    RemovesFirst (fun u => addrCmp u.address clientAddr) users
      (logoutSlots (users ++ others) (users.map some ++ rest) users.length clientAddr) := by
  obtain ⟨l, u, r, rfl, hl, hu⟩ := exists_split (p := fun u : User => addrCmp u.address clientAddr)
    (by simpa using h)
  have htest : ∀ v ∈ l ++ [u], testUser (l ++ u :: r ++ others)
      (fun u => addrCmp u.address clientAddr) (some v) = .ok (addrCmp v.address clientAddr) := by
    intro v hv
    refine testUser_of_readable ⟨v, List.mem_append_left _ ?_, rfl⟩
    simp only [List.mem_append, List.mem_cons] at hv ⊢
    tauto
  obtain ⟨v, hv⟩ := exists_shiftDown_slots l r u rest
  have hres : logoutSlots (l ++ u :: r ++ others) ((l ++ u :: r).map some ++ rest)
      (l ++ u :: r).length clientAddr =
        .ok ⟨some (some u), (l ++ r).map some ++ v :: rest, (l ++ u :: r).length - 1⟩ := by
    rw [logoutSlots, searchLoop_slots hl hu htest]
    simp only [ok_bind, nonNull, getSlot_slots, hv]
    rfl
  exact removesFirst_of_eq hl hu (by omega) hres

end Rules

/-- **The four loops agree.** Each deletes the first element that matches a key that occurs, and
nothing else: `remove_user`; `neat_remove` with a comparator, and with the position of the first
match whatever the comparator; the loop of `/leave`; and the shift of `REQ_LOGOUT`. -/
theorem removals_agree {α : Type} (xs : List α) (cmp cmp' : α → Bool) (spare : Option α)
    (rest : List (Option α)) (users others : List User) (restUsers : List (Option User))
    (username : Username) (clientAddr : Sockaddr) (joinedChnls : List Name)
    (restChnls : List (Option Name)) (chnl : Name) :
    ((∃ u ∈ users, u.username = username) →
      RemovesFirst (fun u => u.username == username) users
        (removeUserSlots (users ++ others) (users.map some ++ restUsers) users.length username)) ∧
    ((∃ x ∈ xs, cmp x = true) →
      RemovesFirst cmp xs (neatRemoveSlots (xs.map some ++ spare :: rest) xs.length cmp none) ∧
      RemovesFirst cmp xs (neatRemoveSlots (xs.map some ++ spare :: rest) xs.length cmp'
        (some (xs.findIdx cmp)))) ∧
    (chnl ∈ joinedChnls →
      RemovesFirst (· == chnl) joinedChnls
        (leaveSlots (joinedChnls.map some ++ restChnls) joinedChnls.length chnl)) ∧
    ((∃ u ∈ users, u.address = clientAddr) →
      RemovesFirst (fun u => addrCmp u.address clientAddr) users
        (logoutSlots (users ++ others) (users.map some ++ restUsers) users.length clientAddr)) :=
  ⟨removeUserSlots_removes users others restUsers,
    fun h => ⟨neatRemoveSlots_removes spare rest h, neatRemoveSlots_removes_at cmp' spare rest h⟩,
    leaveSlots_removes joinedChnls restChnls, logoutSlots_removes users others restUsers⟩

open Three in
/-- On lists where the element is in the middle, last, and twice. -/
theorem removals_agree_two :
    RemovesFirst (fun u => u.username == username 1) [user 0, user 1, user 2]
      (removeUserSlots [user 0, user 1, user 2, user 1]
        [some (user 0), some (user 1), some (user 2)] 3 (username 1)) ∧
    (RemovesFirst (· == 5) [7, 5, 5]
        (neatRemoveSlots [some 7, some 5, some 5, none] 3 (· == 5) none) ∧
      RemovesFirst (· == 5) [7, 5, 5]
        (neatRemoveSlots [some 7, some 5, some 5, none] 3 (fun _ => true) (some 1))) ∧
    RemovesFirst (· == chnlX) [common, chnlX] (leaveSlots [some common, some chnlX, none] 2 chnlX) ∧
    RemovesFirst (fun u => addrCmp u.address (client 1)) [user 0, user 1, user 2]
      (logoutSlots [user 0, user 1, user 2, user 1] [some (user 0), some (user 1), some (user 2)] 3
        (client 1)) := by
  obtain ⟨hremove, hneat, hleave, hlogout⟩ := removals_agree [7, 5, 5] (· == 5) (fun _ => true) none
    [] [user 0, user 1, user 2] [user 1] [] (username 1) (client 1) [common, chnlX] [none] chnlX
  exact ⟨hremove ⟨user 1, by decide⟩, hneat ⟨5, by decide⟩, hleave (by decide),
    hlogout ⟨user 1, by decide⟩⟩

/-! ### The tables of the model -/

section Refinement

variable {α : Type} {cap : ℕ}

theorem live_remove_begins (t : Table α cap) (hit : ℕ → α → Bool) (rest : List α) :
    (t.remove hit).live <+: shiftLoop hit 0 false t.live ++ rest :=
  (List.take_prefix _ _).trans (List.prefix_append _ _)

/-- **`remove_user`** on the table of a channel, with a user who can be freed, and a name that may
not occur. -/
theorem removeUserSlots_refines (heap : List User) (chnl : Channel) (username : Username)
    (rest : List (Option User)) :
    match removeUser heap chnl username with
    | .error f => removeUserSlots heap (chnl.entries ++ rest) chnl.numUsers username = .error f
    | .ok (ret, chnl') => ∃ list,
        removeUserSlots heap (chnl.entries ++ rest) chnl.numUsers username =
          .ok ⟨ret, list, chnl'.numUsers⟩ ∧ chnl'.entries <+: list := by
  have hq : ∀ e b, testUser heap (fun u => u.username == username) e = .ok b →
      hasUser (fun u => u.username == username) e = b := by
    intro e b h
    rw [testUser] at h
    cases hd : deref heap e with
    | error f =>
      rw [hd] at h
      cases h
    | ok u =>
      rw [hd] at h
      obtain ⟨rfl, -⟩ := deref_eq_ok_iff.mp hd
      exact Except.ok.inj h
  have hkey := moveLoop_key Fault.read (some none) hq chnl.entries rest
  have hlen : chnl.entries.length = chnl.numUsers.toNat := chnl.connectedUsers.length_live
  rw [removeUser, removeUserSlots]
  cases hscan : scan (testUser heap fun u => u.username == username) chnl.entries with
  | error f =>
    rw [hscan, hlen] at hkey
    simp only at hkey ⊢
    rw [hkey]
    rfl
  | ok ret =>
    rw [hscan, hlen] at hkey
    obtain ⟨vs, hvs, -⟩ := hkey
    refine ⟨_, by rw [hvs]; rfl, ?_⟩
    rw [List.append_assoc, ← shiftLoop_eraseP _ 0]
    exact live_remove_begins chnl.connectedUsers _ _

/-- A loop with a flag on slots that all hold elements. -/
theorem moveLoop_testSlot (f : Fault) (cmp : α → Bool) (t : Table α cap) (rest : List (Option α)) :
    ∃ vs, moveLoop Fault.read none (fun _ => testSlot f cmp) t.count.toNat 0 false none
        (t.live.map some ++ rest) =
      .ok ((t.live.find? cmp).map some, (t.live.eraseP cmp).map some ++ vs ++ rest) ∧
        (t.live.eraseP cmp).length + vs.length = t.count.toNat := by
  have hq : ∀ e b, testSlot f cmp e = .ok b → e.any cmp = b := by
    intro e b h
    cases e with
    | none => cases h
    | some x => exact Except.ok.inj h
  have hscan : scan (testSlot f cmp) (t.live.map some) =
      .ok ((t.live.map some).find? (·.any cmp)) :=
    scan_eq_find? fun e he => by
      obtain ⟨x, -, rfl⟩ := List.mem_map.mp he
      rfl
  have hkey := moveLoop_key Fault.read none hq (t.live.map some) rest
  rw [hscan, List.length_map, t.length_live] at hkey
  obtain ⟨vs, hvs, hlen⟩ := hkey
  have herase : (t.live.map some).eraseP (·.any cmp) = (t.live.eraseP cmp).map some :=
    List.eraseP_map ..
  have hfind : (t.live.map some).find? (·.any cmp) = (t.live.find? cmp).map some :=
    List.find?_map ..
  rw [herase, List.length_map] at hlen
  rw [herase, hfind] at hvs
  exact ⟨vs, hvs, hlen⟩

/-- **`neat_remove`** on a table with a slot to spare, whatever the comparator and the position. -/
theorem neatRemoveSlots_refines (t : Table α cap) (cmp : α → Bool) (pos : Option ℤ)
    (spare : Option α) (rest : List (Option α)) :
    ∃ ret list, neatRemoveSlots (t.live.map some ++ spare :: rest) t.count cmp pos =
        .ok ⟨ret, list, (neatRemove t cmp pos).count⟩ ∧
      (neatRemove t cmp pos).live.map some <+: list := by
  obtain ⟨hit, hremove, ret, vs, hvs, hlen⟩ : ∃ hit, neatRemove t cmp pos = t.remove hit ∧
      ∃ ret vs, moveLoop Fault.read none (neatHit cmp pos) t.count.toNat 0 false none
          (t.live.map some ++ spare :: rest) =
        .ok (ret, (shiftLoop hit 0 false t.live).map some ++ vs ++ spare :: rest) ∧
          (shiftLoop hit 0 false t.live).length + vs.length = t.count.toNat := by
    cases pos with
    | none =>
      obtain ⟨vs, hvs⟩ := moveLoop_testSlot .null cmp t (spare :: rest)
      rw [← shiftLoop_eraseP cmp 0] at hvs
      exact ⟨_, rfl, _, vs, hvs⟩
    | some p =>
      obtain ⟨vs, hvs, hlen⟩ := moveLoop_eq Fault.read none none (fun i _ => p == (i : ℤ)) []
        (t.live.map some) (spare :: rest)
      rw [List.length_map, t.length_live, List.nil_append, shiftLoop_map] at hvs
      rw [List.length_map, t.length_live, shiftLoop_map, List.length_map] at hlen
      exact ⟨_, rfl, _, vs, hvs, hlen⟩
  have hfront : ((shiftLoop hit 0 false t.live).map some ++ vs).length = t.count.toNat := by
    rw [List.length_append, List.length_map, hlen]
  have hlast : setSlot (Fault.store .above)
      ((shiftLoop hit 0 false t.live).map some ++ vs ++ spare :: rest) t.count.toNat none =
        .ok ((shiftLoop hit 0 false t.live).map some ++ vs ++ none :: rest) := by
    rw [← hfront, setSlot_append]
  refine ⟨ret, (shiftLoop hit 0 false t.live).map some ++ vs ++ none :: rest, ?_, ?_⟩
  · rw [neatRemoveSlots, hvs, ok_bind]
    simp only
    rw [hlast, hremove]
    rfl
  · rw [hremove, List.append_assoc]
    exact ((List.take_prefix _ _).map some).trans (List.prefix_append _ _)

/-- **The loop of `/leave`** on the table of the client, which is left alone if the channel is not
in it. -/
theorem leaveSlots_refines (joinedChnls : Table Name cap) (chnl : Name)
    (rest : List (Option Name)) :
    ∃ list, leaveSlots (joinedChnls.live.map some ++ rest) joinedChnls.count chnl =
        .ok ⟨(joinedChnls.live.find? (· == chnl)).map some, list,
          (if joinedChnls.live.any (· == chnl) then joinedChnls.remove fun _ x => x == chnl
            else joinedChnls).count⟩ ∧
      (if joinedChnls.live.any (· == chnl) then joinedChnls.remove fun _ x => x == chnl
        else joinedChnls).live.map some <+: list := by
  obtain ⟨vs, hvs, -⟩ := moveLoop_testSlot .read (· == chnl) joinedChnls rest
  refine ⟨(joinedChnls.live.eraseP (· == chnl)).map some ++ vs ++ rest, ?_, ?_⟩
  · have hfound : ((joinedChnls.live.find? (· == chnl)).map some).isSome =
        joinedChnls.live.any (· == chnl) := by
      rw [Option.isSome_map, List.isSome_find?]
    rw [leaveSlots, hvs, ok_bind]
    simp only [hfound]
    split
    · rfl
    · rfl
  · rw [List.append_assoc]
    refine List.IsPrefix.trans ?_ (List.prefix_append _ _)
    split
    · rw [Table.live_remove]
      exact (List.take_prefix _ _).map some
    · next h =>
      have hnot : ∀ x ∈ joinedChnls.live, ¬(x == chnl) = true := fun x hx hc =>
        h (List.any_eq_true.mpr ⟨x, hx, hc⟩)
      rw [List.eraseP_of_forall_not hnot]

/-- **The shift of `REQ_LOGOUT`** on the table of users. -/
theorem logoutSlots_refines (allUsers : Table User cap) (others : List User)
    (rest : List (Option User)) (clientAddr : Sockaddr) :
    match nonNull (findUser allUsers clientAddr) with
    | .error f => logoutSlots (allUsers.live ++ others) (allUsers.live.map some ++ rest)
        allUsers.count clientAddr = .error f
    | .ok usr => ∃ list, logoutSlots (allUsers.live ++ others) (allUsers.live.map some ++ rest)
          allUsers.count clientAddr = .ok ⟨some (some usr), list,
            (allUsers.remove fun _ u => addrCmp u.address clientAddr).count⟩ ∧
        (allUsers.remove fun _ u => addrCmp u.address clientAddr).live.map some <+: list := by
  rw [findUser]
  cases h : allUsers.live.find? fun u => addrCmp u.address clientAddr with
  | none =>
    have hnot : ∀ u ∈ allUsers.live, addrCmp u.address clientAddr = false := fun u hu =>
      eq_false_of_ne_true (List.find?_eq_none.mp h u hu)
    have hsearch : searchLoop Fault.read (testUser (allUsers.live ++ others)
        fun u => addrCmp u.address clientAddr) (allUsers.live.map some).length 0
          (allUsers.live.map some ++ rest) = .ok none :=
      searchLoop_none Fault.read fun e he => by
        obtain ⟨u, hu, rfl⟩ := List.mem_map.mp he
        rw [testUser_of_readable ⟨u, List.mem_append_left _ hu, rfl⟩]
        exact congrArg Except.ok (hnot u hu)
    rw [List.length_map, allUsers.length_live] at hsearch
    show logoutSlots _ _ _ _ = _
    rw [logoutSlots, hsearch]
    rfl
  | some usr =>
    have hmem := List.mem_of_find?_eq_some h
    have haddr : addrCmp usr.address clientAddr = true :=
      List.find?_some (p := fun u : User => addrCmp u.address clientAddr) h
    have hcount := Table.count_eq_length (Int.le_of_lt (Table.count_pos_of_mem hmem))
    obtain ⟨x, list, n, hres, hx, htake, hn⟩ := logoutSlots_removes allUsers.live others rest
      ⟨usr, hmem, by simpa using haddr⟩
    obtain rfl : usr = x := Option.some.inj (h.symm.trans hx)
    rw [← hcount] at hres hn
    refine ⟨list, ?_, ?_⟩
    · rw [hres, hn]
      rfl
    · rw [Table.live_remove_of_mem hmem haddr, ← htake]
      exact List.take_prefix _ _

end Refinement

end DuckChat
