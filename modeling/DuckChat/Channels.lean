import DuckChat.Messages

/-!
# Channels and their users (`channels.c`, `channels.h`)

A `User` is a `malloc`ed record that the table of users and any number of channels point to. The
record is never written again, so a pointer to it is modelled by the record together with the
identity `ptr` of its block; two logins of one client are two blocks. What can change is whether
the block is still allocated, and a read through a pointer needs that: `deref` takes the list of
allocated users and faults on `NULL` and on a freed block.

## Main definitions

* `User`, `Channel`
* `addUser`, `createUser`, `removeUser`, `findByaddr`, `createChannel`

## Main results

* `removeUser_eq_ok` — a removal from a channel whose entries can all be read
* `findByaddr_eq_ok` — the search by address on such a channel
-/

set_option autoImplicit false

namespace DuckChat

def MAX_USERS : ℕ := 32
def MAX_CHANNELS : ℕ := 64

theorem one_le_MAX_USERS : 1 ≤ MAX_USERS := by decide

/-- A `User` record, with the identity of its block. -/
structure User where
  ptr : ℕ
  username : Username
  address : Sockaddr
deriving DecidableEq

/-- A `Channel`: its name, its table of user pointers and its last renewal. -/
structure Channel where
  chnlName : Name
  connectedUsers : Table (Option User) MAX_USERS
  tm : ℤ
deriving DecidableEq

namespace Channel

/-- The entries of the live prefix, `connected_users[0..num_users)`. -/
def entries (chnl : Channel) : List (Option User) := chnl.connectedUsers.live

def numUsers (chnl : Channel) : ℤ := chnl.connectedUsers.count

end Channel

/-- Reading a user through a pointer. -/
def deref (heap : List User) : Option User → Except Fault User
  | none => .error .null
  | some u => if u ∈ heap then .ok u else .error .freed

theorem deref_eq_ok_iff {heap : List User} {e : Option User} {u : User} :
    deref heap e = .ok u ↔ e = some u ∧ u ∈ heap := by
  cases e with
  | none => simp [deref]
  | some v =>
    rw [deref]
    split
    · next h => constructor
                · rintro ⟨⟩; exact ⟨rfl, h⟩
                · rintro ⟨⟨⟩, -⟩; rfl
    · next h => constructor
                · intro hc; cases hc
                · rintro ⟨⟨⟩, hv⟩; exact absurd hv h

/-- An entry that can be read: not `NULL`, and its user not freed. -/
def Readable (heap : List User) (e : Option User) : Prop := ∃ u ∈ heap, e = some u

instance (heap : List User) (e : Option User) : Decidable (Readable heap e) :=
  inferInstanceAs (Decidable (∃ u ∈ heap, e = some u))

/-- Entries that can be read are users. -/
theorem exists_users {heap : List User} {es : List (Option User)}
    (h : ∀ e ∈ es, Readable heap e) : ∃ users : List User, es = users.map some := by
  induction es with
  | nil => exact ⟨[], rfl⟩
  | cons e es ih =>
    obtain ⟨users, rfl⟩ := ih fun x hx => h x (List.mem_cons_of_mem _ hx)
    obtain ⟨u, -, rfl⟩ := h e List.mem_cons_self
    exact ⟨u :: users, rfl⟩

/-- The test of an entry by a field of its user. -/
def testUser (heap : List User) (p : User → Bool) (e : Option User) : Except Fault Bool :=
  match deref heap e with
  | .error f => .error f
  | .ok u => .ok (p u)

/-- The same test on an entry that can be read. -/
def hasUser (p : User → Bool) : Option User → Bool
  | none => false
  | some u => p u

theorem testUser_of_readable {heap : List User} {p : User → Bool} {e : Option User}
    (h : Readable heap e) : testUser heap p e = .ok (hasUser p e) := by
  obtain ⟨u, hu, rfl⟩ := h
  rw [testUser, deref_eq_ok_iff.mpr ⟨rfl, hu⟩]
  rfl

/-! ### Operations -/

/-- `add_user`: the pointer may be `NULL`. -/
def addUser (chnl : Channel) (usr : Option User) : Except Fault Channel :=
  match store chnl.connectedUsers usr with
  | .error f => .error f
  | .ok t => .ok { chnl with connectedUsers := t }

/-- `create_user`, on the record it has just allocated and filled. -/
def createUser (chnl : Channel) (newU : User) : Except Fault Channel := addUser chnl (some newU)

/-- `remove_user`: compare user names until one matches, shift the later entries down, and
decrement the counter in any case. The returned entry is the match; without one, C returns an
uninitialised pointer. -/
def removeUser (heap : List User) (chnl : Channel) (username : Username) :
    Except Fault (Option (Option User) × Channel) :=
  match scan (testUser heap fun u => u.username == username) chnl.entries with
  | .error f => .error f
  | .ok ret =>
      .ok (ret, { chnl with
        connectedUsers :=
          chnl.connectedUsers.remove fun _ => hasUser fun u => u.username == username })

/-- `remove_user` under `usr->username`, for a `usr` that may be `NULL`. Then the name is an address
that only the comparisons follow: without entries there are none, and the counter goes down. -/
def removeUserOf (heap : List User) (chnl : Channel) (usr : Option User) :
    Except Fault (Option (Option User) × Channel) :=
  match usr with
  | some usr => removeUser heap chnl usr.username
  | none =>
      match scan (fun _ => .error .null) chnl.entries with
      | .error f => .error f
      | .ok ret =>
          .ok (ret, { chnl with connectedUsers := chnl.connectedUsers.remove fun _ _ => false })

/-- `find_byaddr`. -/
def findByaddr (heap : List User) (chnl : Channel) (addr : Sockaddr) :
    Except Fault (Option (Option User)) :=
  scan (testUser heap fun u => addrCmp u.address addr) chnl.entries

/-- `create_channel`, at the clock reading `now`. -/
def createChannel (chnlName : Name) (now : ℤ) : Channel where
  chnlName := chnlName
  connectedUsers := Table.empty
  tm := now

/-! ### Rules for the operations -/

theorem addUser_eq_ok_iff {chnl chnl' : Channel} {usr : Option User} :
    addUser chnl usr = .ok chnl' ↔
      0 ≤ chnl.numUsers ∧ chnl.numUsers < MAX_USERS ∧ chnl'.entries = chnl.entries ++ [usr] ∧
        chnl'.numUsers = chnl.numUsers + 1 ∧ chnl'.chnlName = chnl.chnlName ∧
        chnl'.tm = chnl.tm := by
  obtain ⟨n', t', m'⟩ := chnl'
  simp only [Channel.entries, Channel.numUsers]
  rw [addUser]
  cases hs : store chnl.connectedUsers usr with
  | error f =>
    constructor
    · intro h; cases h
    · rintro ⟨h0, h1, hl, hc, -⟩
      rw [store_eq_ok_iff.mpr ⟨h0, h1, hl, hc⟩] at hs
      cases hs
  | ok t =>
    obtain ⟨h0, h1, hl, hc⟩ := store_eq_ok_iff.mp hs
    constructor
    · intro h
      cases h
      exact ⟨h0, h1, hl, hc, rfl, rfl⟩
    · rintro ⟨-, -, hl', hc', hn, hm⟩
      have : t = t' := Table.ext (hl.trans hl'.symm) (hc.trans hc'.symm)
      simp_all

/-- There is room for a user. -/
theorem exists_addUser {chnl : Channel} (e : Option User) (h0 : 0 ≤ chnl.numUsers)
    (hlt : chnl.numUsers < MAX_USERS) : ∃ chnl', addUser chnl e = .ok chnl' := by
  obtain ⟨t, ht⟩ := exists_store (t := chnl.connectedUsers) e h0 hlt
  exact ⟨_, by rw [addUser, ht]⟩

/-- A channel whose counter says so has no entries. -/
theorem entries_eq_nil {chnl : Channel} (h : chnl.numUsers = 0) : chnl.entries = [] := by
  refine List.eq_nil_of_length_eq_zero ?_
  rw [Channel.entries, chnl.connectedUsers.length_live]
  show chnl.numUsers.toNat = 0
  rw [h]
  rfl

/-- A channel whose counter is not negative has as many entries as it counts. -/
theorem numUsers_eq_length {chnl : Channel} (h : 0 ≤ chnl.numUsers) :
    chnl.numUsers = chnl.entries.length :=
  Table.count_eq_length h

/-- **Removal from a channel whose entries can be read.** -/
theorem removeUser_eq_ok {heap : List User} {chnl : Channel} (username : Username)
    (h : ∀ e ∈ chnl.entries, Readable heap e) :
    removeUser heap chnl username =
      .ok (chnl.entries.find? (hasUser fun u => u.username == username), { chnl with
        connectedUsers :=
          chnl.connectedUsers.remove fun _ => hasUser fun u => u.username == username }) := by
  rw [removeUser, scan_eq_find? fun e he => testUser_of_readable (h e he)]

theorem findByaddr_eq_ok {heap : List User} {chnl : Channel} {addr : Sockaddr}
    (h : ∀ e ∈ chnl.entries, Readable heap e) :
    findByaddr heap chnl addr =
      .ok (chnl.entries.find? (hasUser fun u => addrCmp u.address addr)) :=
  scan_eq_find? fun e he => testUser_of_readable (h e he)

/-- Whatever it finds, a removal keeps the name and the renewal time, loses one from the counter
and brings no entry in. -/
theorem removeUser_ok {heap : List User} {chnl chnl' : Channel} {username : Username}
    {ret : Option (Option User)} (h : removeUser heap chnl username = .ok (ret, chnl')) :
    chnl'.chnlName = chnl.chnlName ∧ chnl'.tm = chnl.tm ∧ chnl'.numUsers = chnl.numUsers - 1 ∧
      ∀ e ∈ chnl'.entries, e ∈ chnl.entries := by
  rw [removeUser] at h
  split at h
  · cases h
  · cases h
    exact ⟨rfl, rfl, rfl, fun e he => Table.mem_of_mem_live_remove he⟩

/-- The same for a name that may be at an address formed from `NULL`. -/
theorem removeUserOf_ok {heap : List User} {chnl chnl' : Channel} {usr : Option User}
    {ret : Option (Option User)} (h : removeUserOf heap chnl usr = .ok (ret, chnl')) :
    chnl'.chnlName = chnl.chnlName ∧ chnl'.tm = chnl.tm ∧ chnl'.numUsers = chnl.numUsers - 1 ∧
      ∀ e ∈ chnl'.entries, e ∈ chnl.entries := by
  cases usr with
  | some usr => exact removeUser_ok h
  | none =>
    simp only [removeUserOf] at h
    split at h
    · cases h
    · cases h
      exact ⟨rfl, rfl, rfl, fun e he => Table.mem_of_mem_live_remove he⟩

end DuckChat
