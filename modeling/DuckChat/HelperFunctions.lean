import DuckChat.Channels

/-!
# Lookups, packet fillers and neighbour tables (`helper_functions.c`)

A `Server` is what a server keeps about one neighbour: its address, and the two parallel arrays
`sub_channels` and `timers` that share the counter `num_chnnls`.

## Main definitions

* `findChannel`, `storeChannel`, `findUser`, `addChnl`, `neatRemove`, `removeChnl`
* `fillError`, `s2sFillSay`, `s2sFillJoin`, `s2sFillLeave`, `fillTextSay`
* `Server`, `findChannelServer`, `findServerAddress`, `hasChannelServer(s)`, `addChSrv`,
  `channelElapse`, `removeAdjChannel`
* `RecentIds`, `RecentIds.record`, `hasId`

## Main results

* `removeAdjChannel_eq_ok` — the function lowers the counter and nothing else: the name it is
  given plays no part, and the *last* subscription is the one that goes
* `hasId_eq_ok_false` — a negative answer means the identifier is in none of the slots
-/

set_option autoImplicit false

namespace DuckChat

/-! ### Channels and users -/

/-- `strcmp(chnl->chnl_name, channel_name) == 0`, also `chnl_cmp`. -/
def chnlCmp (channelName : Name) (chnl : Channel) : Bool := chnl.chnlName == channelName

/-- `find_channel`. The pointer it returns is used through `storeChannel`. -/
def findChannel {cap : ℕ} (chnls : Table Channel cap) (channelName : Name) : Option Channel :=
  chnls.live.find? (chnlCmp channelName)

/-- Replace the first element that passes the test. -/
def replaceFirst {α : Type} (p : α → Bool) (y : α) : List α → List α
  | [] => []
  | x :: xs => if p x then y :: xs else x :: replaceFirst p y xs

theorem length_replaceFirst {α : Type} (p : α → Bool) (y : α) (xs : List α) :
    (replaceFirst p y xs).length = xs.length := by
  induction xs with
  | nil => rfl
  | cons x xs ih =>
    rw [replaceFirst]
    split
    · rfl
    · rw [List.length_cons, List.length_cons, ih]

/-- A store through the pointer that `find_channel` returned for `channelName`. -/
def storeChannel {cap : ℕ} (chnls : Table Channel cap) (channelName : Name) (chnl : Channel) :
    Table Channel cap :=
  chnls.overwrite (replaceFirst (chnlCmp channelName) chnl chnls.live)

/-- `find_user`. The position it reports is that of the first user with the address. -/
def findUser {cap : ℕ} (usrs : Table User cap) (addr : Sockaddr) : Option User :=
  usrs.live.find? fun u => addrCmp u.address addr

/-- `add_chnl`. -/
def addChnl {cap : ℕ} (chnls : Table Channel cap) (chnlName : Name) (now : ℤ) :
    Except Fault (Table Channel cap) :=
  store chnls (createChannel chnlName now)

/-- `neat_remove`: with a position the comparator is not called. The `NULL` that it puts in
`list[list_len]`, behind the live slots, is left out. On a full table that slot is outside the
array, and a store there does not fault here, as one in `store` does; where it goes is told in
`Bounds`. -/
def neatRemove {α : Type} {cap : ℕ} (list : Table α cap) (cmp : α → Bool) (pos : Option ℤ) :
    Table α cap :=
  list.remove fun i x =>
    match pos with
    | none => cmp x
    | some p => p == i

/-- `remove_chnl`. -/
def removeChnl {cap : ℕ} (chnls : Table Channel cap) (chnlName : Name) : Table Channel cap :=
  neatRemove chnls (chnlCmp chnlName) none

/-! ### Packets -/

theorem noNul_append {a b : List UInt8} (ha : 0 ∉ a) (hb : 0 ∉ b) : 0 ∉ a ++ b := by
  rw [List.mem_append]
  tauto

/-- `fill_error`, through `sprintf`. -/
def fillError (chnlName : Name) : Text :=
  .error ⟨ascii "Error: Cannot find channel: " ++ chnlName.bytes,
    noNul_append (by decide) chnlName.noNul, by
      have h : chnlName.bytes.length < 32 := chnlName.fits
      have h' : (ascii "Error: Cannot find channel: ").length = 28 := by decide
      rw [List.length_append, h', SAY_MAX]
      omega⟩

/-- The error of `REQ_WHO`, built by `strcpy` and two `strcat`s in place. -/
def whoError (chnlName : Name) : Text :=
  .error ⟨ascii "Error: Channel \"" ++ chnlName.bytes ++ ascii "\" does not exist",
    noNul_append (noNul_append (by decide) chnlName.noNul) (by decide), by
      have h : chnlName.bytes.length < 32 := chnlName.fits
      have h₁ : (ascii "Error: Channel \"").length = 16 := by decide
      have h₂ : (ascii "\" does not exist").length = 16 := by decide
      rw [List.length_append, List.length_append, h₁, h₂, SAY_MAX]
      omega⟩

/-- `s2s_fill_say`, with the identifier the caller stores into it. -/
def s2sFillSay (channel : Name) (username : Username) (text : SayText) (id : Id) : SayS2S where
  id := id
  reqUsername := username
  reqChannel := channel
  reqText := text

/-- `s2s_fill_join`. -/
def s2sFillJoin (channel : Name) : S2S := .join channel

/-- `s2s_fill_leave`. -/
def s2sFillLeave (channel : Name) : S2S := .leave channel

/-- `fill_text_say`. -/
def fillTextSay (channel : Name) (username : Username) (text : SayText) : Text :=
  .say channel username text

/-! ### Neighbour tables -/

/-- A `Server` record: one neighbour, with the channels it is subscribed to and the clock readings
of its last joins. One counter, `num_chnnls`, serves both arrays. -/
structure Server where
  addr : Sockaddr
  subChannels : Table Name MAX_CHANNELS
  timers : Table ℤ MAX_CHANNELS
  inStep : timers.count = subChannels.count
deriving DecidableEq

namespace Server

def numChnnls (srvr : Server) : ℤ := srvr.subChannels.count

/-- The names `sub_channels[0..num_chnnls)`. -/
def subs (srvr : Server) : List Name := srvr.subChannels.live

/-- Lower `num_chnnls` to `n`. -/
def setNumChnnls (srvr : Server) (n : ℤ) : Server where
  addr := srvr.addr
  subChannels := srvr.subChannels.truncate n
  timers := srvr.timers.truncate n
  inStep := congrArg (min n) srvr.inStep

end Server

/-- `find_channel_server`; `none` is the `-1`. -/
def findChannelServer (srvr : Server) (channel : Name) : Option ℕ :=
  srvr.subs.findIdx? fun c => c == channel

/-- `has_channel_server`. -/
def hasChannelServer (srvr : Server) (channel : Name) : Bool :=
  srvr.subs.any fun c => c == channel

/-- `has_channel_servers`: each neighbour counts once, whatever its table holds. -/
def hasChannelServers (srvsr : List Server) (channel : Name) : ℕ :=
  srvsr.countP fun srvr => hasChannelServer srvr channel

/-- `find_server_address`. -/
def findServerAddress (srvrList : List Server) (addr : Sockaddr) : Option Server :=
  srvrList.find? fun srvr => addrCmp srvr.addr addr

/-- A store through the pointer that `find_server_address` returned for `addr`. -/
def storeServer (srvrList : List Server) (addr : Sockaddr) (srvr : Server) : List Server :=
  replaceFirst (fun s => addrCmp s.addr addr) srvr srvrList

/-- `add_ch_srv`: one append to each array, the counter moves once. -/
def addChSrv (srvr : Server) (channel : Name) (now : ℤ) : Except Fault Server :=
  match hs : store srvr.subChannels channel, ht : store srvr.timers now with
  | .ok names, .ok timers => .ok
      { addr := srvr.addr
        subChannels := names
        timers := timers
        inStep := by
          have h₁ := (store_eq_ok_iff.mp hs).2.2.2
          have h₂ := (store_eq_ok_iff.mp ht).2.2.2
          rw [h₁, h₂, srvr.inStep] }
  | .error f, _ => .error f
  | _, .error f => .error f

/-- `srvr->timers[pos] = time(NULL)` at the position of a listed channel. -/
def refreshTimer (srvr : Server) (pos : ℕ) (now : ℤ) : Server where
  addr := srvr.addr
  subChannels := srvr.subChannels
  timers := srvr.timers.overwrite (srvr.timers.live.set pos now)
  inStep := (Table.count_overwrite _ _).trans srvr.inStep

/-- The conversion of a `time_t` to an `int`. -/
def toInt (x : ℤ) : ℤ := x.bmod 4294967296

/-- `channel_elapse`: the seconds since the last join, `-1` for a channel that is not listed. The
difference of the two clock readings is returned as an `int`. -/
def channelElapse (srvr : Server) (channel : Name) (now : ℤ) : ℤ :=
  match findChannelServer srvr channel with
  | some pos => toInt (now - srvr.timers.live.getD pos 0)
  | none => -1

/-- `channel_cmp`. -/
def channelCmp (chName subName : Name) : Bool := subName == chName

/-- `remove_adj_channel`. The two arrays of pointers are local: `neat_remove` shifts the pointers,
and only the counter outlives the call. It is passed by reference to both calls, with an increment
in between. The arrays have `num_chnnls` elements, so the `NULL` of each call goes to the stack one
behind them; it is taken to change nothing. -/
def removeAdjChannel (srvr : Server) (channel : Name) : Except Fault Server :=
  if srvr.numChnnls < 0 then .error .size
  else
    let pos : ℤ := -1
    let ptrs := neatRemove srvr.subChannels (channelCmp channel) (some pos)
    let numChnnls := ptrs.count + 1
    let cPtrs := neatRemove (srvr.timers.truncate numChnnls) (fun _ => false) (some pos)
    .ok (srvr.setNumChnnls cPtrs.count)

/-! ### The window of recent identifiers -/

def MAX_IDS : ℕ := 1024

/-- The largest `int`. -/
def INT_MAX : ℕ := 2147483647

/-- `recent_ids` and `num_ids`: the slots written so far, and the number of identifiers recorded
since the start. -/
structure RecentIds where
  slots : List Id
  numIds : ℕ
  filled : slots.length = min numIds MAX_IDS
deriving DecidableEq

namespace RecentIds

/-- The window a server starts with. -/
def empty : RecentIds := ⟨[], 0, by decide⟩

/-- `recent_ids[num_ids++ % MAX_IDS] = id`. -/
def record (ids : RecentIds) (id : Id) : Except Fault RecentIds :=
  if ids.numIds = INT_MAX then .error .counter
  else if h : ids.numIds < MAX_IDS then
    .ok { slots := ids.slots ++ [id]
          numIds := ids.numIds + 1
          filled := by
            have := ids.filled
            rw [List.length_append, List.length_singleton]
            omega }
  else
    .ok { slots := ids.slots.set (ids.numIds % MAX_IDS) id
          numIds := ids.numIds + 1
          filled := by
            have := ids.filled
            rw [List.length_set]
            omega }

end RecentIds

/-- The loop of `has_id` over the slots still to be read. The bound is the ever growing `num_ids`,
so past `MAX_IDS` recorded identifiers a search that fails reads behind the array. -/
def hasIdLoop (id : Id) : List Id → ℕ → Except Fault Bool
  | _, 0 => .ok false
  | [], _ + 1 => .error .read
  | x :: xs, n + 1 => if x = id then .ok true else hasIdLoop id xs n

/-- `has_id`. -/
def hasId (ids : RecentIds) (id : Id) : Except Fault Bool := hasIdLoop id ids.slots ids.numIds

/-! ### Rules for lookups and stores

`replaceFirst` is the store through a looked-up pointer. The two lookups, of channels by name and of
neighbours by address, both go through the lemmas here. -/

section ReplaceFirst

variable {α β : Type} {p : α → Bool} {y : α} {xs : List α}

theorem map_replaceFirst {f : α → β} (h : ∀ x ∈ xs, p x = true → f x = f y) :
    (replaceFirst p y xs).map f = xs.map f := by
  induction xs with
  | nil => rfl
  | cons x xs ih =>
    rw [replaceFirst]
    split
    · next hx => rw [List.map_cons, List.map_cons, h x List.mem_cons_self hx]
    · rw [List.map_cons, List.map_cons, ih fun z hz => h z (List.mem_cons_of_mem _ hz)]

theorem map_replaceFirst_of_find? {f : α → β} {x : α} (hx : xs.find? p = some x)
    (h : f x = f y) : (replaceFirst p y xs).map f = xs.map f := by
  induction xs with
  | nil => rfl
  | cons z xs ih =>
    rw [replaceFirst]
    rw [List.find?_cons] at hx
    split at hx
    · next hz =>
      cases hx
      rw [if_pos hz, List.map_cons, List.map_cons, h]
    · next hz => rw [if_neg (ne_true_of_eq_false hz), List.map_cons, List.map_cons, ih hx]

theorem mem_replaceFirst {x : α} (h : x ∈ replaceFirst p y xs) : x = y ∨ x ∈ xs := by
  induction xs with
  | nil => exact absurd h List.not_mem_nil
  | cons z zs ih =>
    rw [replaceFirst] at h
    split at h
    · rcases List.mem_cons.mp h with rfl | h
      · exact Or.inl rfl
      · exact Or.inr (List.mem_cons_of_mem _ h)
    · rcases List.mem_cons.mp h with rfl | h
      · exact Or.inr List.mem_cons_self
      · exact (ih h).imp_right (List.mem_cons_of_mem _)

/-- A store behind elements that do not match. -/
theorem replaceFirst_append (h : ∀ x ∈ xs, p x = false) (ys : List α) :
    replaceFirst p y (xs ++ ys) = xs ++ replaceFirst p y ys := by
  induction xs with
  | nil => rfl
  | cons x xs ih =>
    rw [List.forall_mem_cons] at h
    rw [List.cons_append, replaceFirst, if_neg (ne_true_of_eq_false h.1), ih h.2, List.cons_append]

/-- Reading back what was stored. -/
theorem find?_replaceFirst_self (hy : p y = true) (h : (xs.find? p).isSome) :
    (replaceFirst p y xs).find? p = some y := by
  induction xs with
  | nil => cases h
  | cons x xs ih =>
    rw [replaceFirst]
    split
    · exact List.find?_cons_of_pos hy
    · next hx =>
      rw [List.find?_cons_of_neg hx] at h ⊢
      exact ih h

/-- A lookup that fails on both the old and the new element is not disturbed. -/
theorem find?_replaceFirst_of_disjoint {q : α → Bool} (hy : q y = false)
    (h : ∀ x ∈ xs, p x = true → q x = false) :
    (replaceFirst p y xs).find? q = xs.find? q := by
  induction xs with
  | nil => rfl
  | cons x xs ih =>
    have ih := ih fun z hz => h z (List.mem_cons_of_mem _ hz)
    rw [replaceFirst]
    split
    · next hx =>
      rw [List.find?_cons_of_neg (by simp [hy]),
        List.find?_cons_of_neg (by simp [h x List.mem_cons_self hx])]
    · cases hq : q x with
      | true => rw [List.find?_cons_of_pos hq, List.find?_cons_of_pos hq]
      | false =>
        rw [List.find?_cons_of_neg (by simp [hq]), List.find?_cons_of_neg (by simp [hq]), ih]

theorem find?_eraseP_of_disjoint {q : α → Bool} (h : ∀ x ∈ xs, p x = true → q x = false) :
    (xs.eraseP p).find? q = xs.find? q := by
  induction xs with
  | nil => rfl
  | cons x xs ih =>
    have ih := ih fun z hz => h z (List.mem_cons_of_mem _ hz)
    cases hx : p x with
    | true =>
      rw [List.eraseP_cons_of_pos hx,
        List.find?_cons_of_neg (ne_true_of_eq_false (h x List.mem_cons_self hx))]
    | false => rw [List.eraseP_cons_of_neg (by simp [hx]), List.find?_cons, List.find?_cons, ih]

end ReplaceFirst

section ChannelTable

variable {cap : ℕ} {chnls chnls' : Table Channel cap} {c d : Name} {chnl : Channel} {now : ℤ}

/-- The names of the channels in the table. -/
def chnlNames (chnls : Table Channel cap) : List Name := chnls.live.map Channel.chnlName

theorem findChannel_some (h : findChannel chnls c = some chnl) :
    chnl ∈ chnls.live ∧ chnl.chnlName = c :=
  ⟨List.mem_of_find?_eq_some h, by simpa [chnlCmp] using List.find?_some h⟩

theorem findChannel_eq_none_iff : findChannel chnls c = none ↔ c ∉ chnlNames chnls := by
  simp [findChannel, chnlCmp, chnlNames]

theorem isSome_findChannel_iff : (findChannel chnls c).isSome ↔ c ∈ chnlNames chnls := by
  rw [← not_iff_not, ← findChannel_eq_none_iff]
  simp

theorem mem_chnlNames_of_find (h : findChannel chnls c = some chnl) : c ∈ chnlNames chnls :=
  isSome_findChannel_iff.mp (by rw [h]; rfl)

theorem live_storeChannel (chnls : Table Channel cap) (c : Name) (chnl : Channel) :
    (storeChannel chnls c chnl).live = replaceFirst (chnlCmp c) chnl chnls.live :=
  Table.live_overwrite (length_replaceFirst _ _ _)

theorem count_storeChannel {cap : ℕ} (chnls : Table Channel cap) (c : Name) (chnl : Channel) :
    (storeChannel chnls c chnl).count = chnls.count :=
  Table.count_overwrite _ _

theorem chnlNames_storeChannel (hn : chnl.chnlName = c) :
    chnlNames (storeChannel chnls c chnl) = chnlNames chnls := by
  rw [chnlNames, live_storeChannel]
  refine map_replaceFirst fun x _ hx => ?_
  have hx : x.chnlName = c := by simpa [chnlCmp] using hx
  rw [hx, hn]

theorem findChannel_storeChannel_self (hn : chnl.chnlName = c) (h : c ∈ chnlNames chnls) :
    findChannel (storeChannel chnls c chnl) c = some chnl := by
  rw [findChannel, live_storeChannel]
  exact find?_replaceFirst_self (by simp [chnlCmp, hn]) (isSome_findChannel_iff.mpr h)

theorem findChannel_storeChannel_of_ne (hn : chnl.chnlName = c) (hd : d ≠ c) :
    findChannel (storeChannel chnls c chnl) d = findChannel chnls d := by
  rw [findChannel, live_storeChannel]
  refine find?_replaceFirst_of_disjoint (by simp [chnlCmp, hn, hd.symm]) fun x _ hx => ?_
  have hx : x.chnlName = c := by simpa [chnlCmp] using hx
  simp [chnlCmp, hx, hd.symm]

theorem addChnl_eq_ok_iff :
    addChnl chnls c now = .ok chnls' ↔
      0 ≤ chnls.count ∧ chnls.count < cap ∧ chnls'.live = chnls.live ++ [createChannel c now] ∧
        chnls'.count = chnls.count + 1 :=
  store_eq_ok_iff

theorem chnlNames_addChnl (h : addChnl chnls c now = .ok chnls') :
    chnlNames chnls' = chnlNames chnls ++ [c] := by
  rw [chnlNames, (addChnl_eq_ok_iff.mp h).2.2.1, List.map_append]
  rfl

theorem findChannel_addChnl_self (h : addChnl chnls c now = .ok chnls')
    (hc : c ∉ chnlNames chnls) : findChannel chnls' c = some (createChannel c now) := by
  have hnone := findChannel_eq_none_iff.mpr hc
  rw [findChannel] at hnone ⊢
  rw [(addChnl_eq_ok_iff.mp h).2.2.1, List.find?_append, hnone]
  simp [chnlCmp, createChannel]

theorem findChannel_addChnl_of_ne (h : addChnl chnls c now = .ok chnls') (hd : d ≠ c) :
    findChannel chnls' d = findChannel chnls d := by
  rw [findChannel, findChannel, (addChnl_eq_ok_iff.mp h).2.2.1, List.find?_append]
  simp [chnlCmp, createChannel, hd.symm]

/-- Removing a channel that is there deletes its first entry. -/
theorem live_removeChnl (h : c ∈ chnlNames chnls) :
    (removeChnl chnls c).live = chnls.live.eraseP (chnlCmp c) := by
  obtain ⟨x, hx, hn⟩ := List.mem_map.mp h
  exact Table.live_remove_of_mem (p := chnlCmp c) hx (by simp [chnlCmp, hn])

/-- The name of a channel that is removed goes, once. -/
theorem chnlNames_removeChnl (h : c ∈ chnlNames chnls) :
    chnlNames (removeChnl chnls c) = (chnlNames chnls).erase c := by
  rw [chnlNames, live_removeChnl h, chnlNames, List.erase_eq_eraseP', List.eraseP_map]
  rfl

/-- The other channels are still found. -/
theorem findChannel_removeChnl_of_ne (h : c ∈ chnlNames chnls) (hd : d ≠ c) :
    findChannel (removeChnl chnls c) d = findChannel chnls d := by
  rw [findChannel, live_removeChnl h]
  refine find?_eraseP_of_disjoint fun x _ hx => ?_
  have hx : x.chnlName = c := by simpa [chnlCmp] using hx
  simp [chnlCmp, hx, hd.symm]

/-- Where names are distinct, a lookup finds the one channel of the name. -/
theorem findChannel_eq_some_iff (hnd : (chnlNames chnls).Nodup) :
    findChannel chnls c = some chnl ↔ chnl ∈ chnls.live ∧ chnl.chnlName = c := by
  refine ⟨findChannel_some, ?_⟩
  rintro ⟨hm, rfl⟩
  obtain ⟨chnl', hf⟩ := Option.isSome_iff_exists.mp
    (isSome_findChannel_iff.mpr (List.mem_map_of_mem (f := Channel.chnlName) hm))
  obtain ⟨hm', hn⟩ := findChannel_some hf
  rw [hf, List.inj_on_of_nodup_map hnd hm' hm hn]

/-- Where names are distinct, a removal takes the one channel of the name and no other. -/
theorem live_removeChnl_eq_filter (hnd : (chnlNames chnls).Nodup)
    (hc : c ∈ chnlNames chnls) :
    (removeChnl chnls c).live = chnls.live.filter fun chnl => chnl.chnlName != c := by
  rw [live_removeChnl hc]
  rw [chnlNames] at hnd
  generalize chnls.live = chs at hnd
  induction chs with
  | nil => rfl
  | cons chnl chs ih =>
    rw [List.map_cons, List.nodup_cons] at hnd
    by_cases hn : chnl.chnlName = c
    · have hp : chnlCmp c chnl = true := by simp [chnlCmp, hn]
      rw [List.eraseP_cons_of_pos hp, List.filter_cons_of_neg (by simp [hn]),
        List.filter_eq_self.mpr]
      intro ch hch
      rw [bne_iff_ne, ← hn]
      exact fun heq => hnd.1 (heq ▸ List.mem_map_of_mem hch)
    · have hp : ¬ chnlCmp c chnl = true := by simp [chnlCmp, hn]
      rw [List.eraseP_cons_of_neg hp, List.filter_cons_of_pos (by simp [hn]), ih hnd.2]

end ChannelTable

section Neighbours

variable {srvs : List Server} {srvr srvr' : Server} {a b : Sockaddr} {c : Name} {now : ℤ}

theorem findServerAddress_some (h : findServerAddress srvs a = some srvr) :
    srvr ∈ srvs ∧ srvr.addr = a :=
  ⟨List.mem_of_find?_eq_some h, by simpa using List.find?_some h⟩

theorem findServerAddress_eq_none_iff :
    findServerAddress srvs a = none ↔ a ∉ srvs.map Server.addr := by
  simp only [findServerAddress, List.find?_eq_none, addrCmp_iff, List.mem_map, not_exists, not_and]

theorem isSome_findServerAddress_iff :
    (findServerAddress srvs a).isSome ↔ a ∈ srvs.map Server.addr := by
  rw [← not_iff_not, ← findServerAddress_eq_none_iff]
  simp

theorem map_addr_storeServer (hn : srvr.addr = a) :
    (storeServer srvs a srvr).map Server.addr = srvs.map Server.addr := by
  refine map_replaceFirst fun x _ hx => ?_
  rw [addrCmp_iff.mp hx, hn]

theorem findServerAddress_storeServer_self (hn : srvr.addr = a)
    (h : a ∈ srvs.map Server.addr) : findServerAddress (storeServer srvs a srvr) a = some srvr :=
  find?_replaceFirst_self (addrCmp_iff.mpr hn) (isSome_findServerAddress_iff.mpr h)

theorem findServerAddress_storeServer_of_ne (hn : srvr.addr = a) (hb : b ≠ a) :
    findServerAddress (storeServer srvs a srvr) b = findServerAddress srvs b := by
  refine find?_replaceFirst_of_disjoint ?_ fun x _ hx => ?_
  · rw [← Bool.not_eq_true, addrCmp_iff, hn]
    exact hb.symm
  · rw [← Bool.not_eq_true, addrCmp_iff, addrCmp_iff.mp hx]
    exact hb.symm

@[simp] theorem hasChannelServer_iff : hasChannelServer srvr c = true ↔ c ∈ srvr.subs := by
  simp [hasChannelServer]

theorem isSome_findChannelServer_iff : (findChannelServer srvr c).isSome ↔ c ∈ srvr.subs := by
  rw [findChannelServer, List.findIdx?_isSome]
  simp

theorem not_mem_subs_of_find (h : findChannelServer srvr c = none) : c ∉ srvr.subs := by
  rw [← isSome_findChannelServer_iff, h]
  exact Bool.false_ne_true

/-- Where no name is listed twice, a position is found exactly if the name stands there. -/
theorem findChannelServer_eq_some_iff (hnd : srvr.subs.Nodup) {pos : ℕ} :
    findChannelServer srvr c = some pos ↔ srvr.subs[pos]? = some c := by
  rw [findChannelServer, List.findIdx?_eq_some_iff_getElem]
  constructor
  · rintro ⟨hlt, hc, -⟩
    rw [List.getElem?_eq_getElem hlt, beq_iff_eq.mp hc]
  · intro hget
    obtain ⟨hlt, hc⟩ := List.getElem?_eq_some_iff.mp hget
    refine ⟨hlt, beq_iff_eq.mpr hc, fun j hj heq => ?_⟩
    have hj' : j < srvr.subs.length := Nat.lt_trans hj hlt
    have hsame : srvr.subs[j] = srvr.subs[pos] := (beq_iff_eq.mp heq).trans hc.symm
    have hpos := hnd.getElem_inj_iff.mp hsame
    omega

/-- A table whose counter is not negative has as many names as it counts. -/
theorem numChnnls_eq_length (h : 0 ≤ srvr.numChnnls) : srvr.numChnnls = srvr.subs.length :=
  Table.count_eq_length h

/-- **Adding a subscription** appends to both arrays, provided there is room. -/
theorem addChSrv_eq_ok_iff :
    addChSrv srvr c now = .ok srvr' ↔
      0 ≤ srvr.numChnnls ∧ srvr.numChnnls < MAX_CHANNELS ∧ srvr'.addr = srvr.addr ∧
        srvr'.subs = srvr.subs ++ [c] ∧ srvr'.timers.live = srvr.timers.live ++ [now] ∧
        srvr'.numChnnls = srvr.numChnnls + 1 := by
  obtain ⟨a', n', t', hin'⟩ := srvr'
  simp only [Server.subs, Server.numChnnls]
  unfold addChSrv
  split
  · next names timers hs ht =>
    obtain ⟨h0, h1, hl, hc⟩ := store_eq_ok_iff.mp hs
    obtain ⟨-, -, hl', hc'⟩ := store_eq_ok_iff.mp ht
    constructor
    · intro h
      cases h
      exact ⟨h0, h1, rfl, hl, hl', hc⟩
    · rintro ⟨-, -, rfl, hn, ht, hcn⟩
      have h₁ : names = n' := Table.ext (hl.trans hn.symm) (hc.trans hcn.symm)
      have h₂ : timers = t' :=
        Table.ext (hl'.trans ht.symm) (by rw [hc', hin', hcn, srvr.inStep])
      subst h₁ h₂
      rfl
  · next f hs =>
    constructor
    · intro h; cases h
    · rintro ⟨h0, h1, -, hn, -, hcn⟩
      rw [store_eq_ok_iff.mpr ⟨h0, h1, hn, hcn⟩] at hs
      cases hs
  · next ht _ =>
    constructor
    · intro h; cases h
    · rintro ⟨h0, h1, -, -, hl, hcn⟩
      have hst := srvr.inStep
      rw [store_eq_ok_iff.mpr ⟨by omega, by omega, hl, by rw [hin', hcn, hst]⟩] at ht
      cases ht

theorem exists_addChSrv (now : ℤ) (c : Name) (h0 : 0 ≤ srvr.numChnnls)
    (hlt : srvr.numChnnls < MAX_CHANNELS) : ∃ srvr', addChSrv srvr c now = .ok srvr' := by
  obtain ⟨names, hn⟩ := exists_store (t := srvr.subChannels) c h0 hlt
  obtain ⟨timers, ht⟩ := exists_store (t := srvr.timers) now (by rw [srvr.inStep]; exact h0)
    (by rw [srvr.inStep]; exact hlt)
  unfold addChSrv
  split
  · exact ⟨_, rfl⟩
  · next hs =>
    rw [hn] at hs
    cases hs
  · next hs _ =>
    rw [ht] at hs
    cases hs

/-- **`remove_adj_channel` lowers the counter.** Its sentinel position matches no index and keeps
the comparator from being called, so the last subscription goes, whatever name was given. -/
theorem removeAdjChannel_eq_ok (h : 0 ≤ srvr.numChnnls) (c : Name) :
    removeAdjChannel srvr c = .ok (srvr.setNumChnnls (srvr.numChnnls - 1)) := by
  have hs : (srvr.timers.truncate (srvr.subChannels.count - 1 + 1)).count = srvr.numChnnls := by
    have := srvr.inStep
    simp only [Table.truncate, Server.numChnnls]
    omega
  rw [removeAdjChannel, if_neg (by omega)]
  simp only [neatRemove, Table.count_remove, hs]

theorem removeAdjChannel_eq_error (h : srvr.numChnnls < 0) (c : Name) :
    removeAdjChannel srvr c = .error .size := by
  rw [removeAdjChannel, if_pos h]

theorem subs_setNumChnnls_pred (srvr : Server) :
    (srvr.setNumChnnls (srvr.numChnnls - 1)).subs = srvr.subs.dropLast := by
  have hl := srvr.subChannels.length_live
  simp only [Server.subs, Server.setNumChnnls, Server.numChnnls, Table.truncate]
  rw [List.dropLast_eq_take, hl]
  congr 1
  omega

theorem numChnnls_setNumChnnls_pred (srvr : Server) :
    (srvr.setNumChnnls (srvr.numChnnls - 1)).numChnnls = srvr.numChnnls - 1 := by
  simp only [Server.setNumChnnls, Server.numChnnls, Table.truncate]
  omega

end Neighbours

/-! ### Rules for the window -/

section Window

variable {ids ids' : RecentIds} {id x : Id}

/-- The window cannot answer `0` for an identifier: it is in a slot, or the search would leave the
array before it could fail. -/
def RecentIds.Seen (ids : RecentIds) (id : Id) : Prop :=
  id ∈ ids.slots ∨ MAX_IDS < ids.numIds

theorem hasIdLoop_eq_ok_false {xs : List Id} {n : ℕ} :
    hasIdLoop id xs n = .ok false ↔ id ∉ xs.take n ∧ n ≤ xs.length := by
  induction xs generalizing n with
  | nil => cases n <;> simp [hasIdLoop]
  | cons y ys ih =>
    cases n with
    | zero => simp [hasIdLoop]
    | succ n =>
      rw [hasIdLoop]
      by_cases hy : y = id
      · simp [hy]
      · rw [if_neg hy, ih]
        simp [Ne.symm hy]

theorem hasIdLoop_eq_ok_true {xs : List Id} {n : ℕ} :
    hasIdLoop id xs n = .ok true ↔ id ∈ xs.take n := by
  induction xs generalizing n with
  | nil => cases n <;> simp [hasIdLoop]
  | cons y ys ih =>
    cases n with
    | zero => simp [hasIdLoop]
    | succ n =>
      rw [hasIdLoop]
      by_cases hy : y = id
      · simp [hy]
      · rw [if_neg hy, ih]
        simp [Ne.symm hy]

theorem RecentIds.length_slots_le (ids : RecentIds) : ids.slots.length ≤ ids.numIds := by
  rw [ids.filled]
  exact Nat.min_le_left _ _

theorem hasId_eq_ok_true : hasId ids id = .ok true ↔ id ∈ ids.slots := by
  rw [hasId, hasIdLoop_eq_ok_true, List.take_of_length_le ids.length_slots_le]

/-- A negative answer is given exactly to the identifiers that are not seen. -/
theorem hasId_eq_ok_false : hasId ids id = .ok false ↔ ¬ ids.Seen id := by
  have h := ids.filled
  rw [hasId, hasIdLoop_eq_ok_false, List.take_of_length_le ids.length_slots_le, RecentIds.Seen,
    not_or]
  refine and_congr_right fun _ => ?_
  omega

theorem RecentIds.mem_of_record (h : ids.record id = .ok ids') (hx : x ∈ ids'.slots) :
    x ∈ ids.slots ∨ x = id := by
  unfold RecentIds.record at h
  split at h
  · cases h
  · split at h <;> cases h
    · simpa using hx
    · exact List.mem_or_eq_of_mem_set hx

/-- The identifier is in the window until its slot is used again. -/
theorem RecentIds.mem_slots_of_record (h : ids.record id = .ok ids') : id ∈ ids'.slots := by
  have hfilled := ids.filled
  unfold RecentIds.record at h
  split at h
  · cases h
  · split at h <;> cases h
    · exact List.mem_append_right _ (List.mem_singleton_self _)
    · exact List.mem_set (by rw [hfilled, MAX_IDS] at *; omega) _

theorem RecentIds.seen_of_record (h : ids.record id = .ok ids') (hx : ids.Seen x ∨ x = id) :
    ids'.Seen x := by
  unfold RecentIds.record at h
  split at h
  · cases h
  · split at h <;> cases h
    · rcases hx with (hx | hx) | rfl
      · exact Or.inl (List.mem_append_left _ hx)
      · omega
      · exact Or.inl (List.mem_append_right _ (List.mem_singleton_self _))
    · exact Or.inr (by simp only; omega)

/-- Below `MAX_IDS` recording always succeeds and forgets nothing. -/
theorem RecentIds.record_of_lt (id : Id) (h : ids.numIds < MAX_IDS) :
    ∃ ids', ids.record id = .ok ids' ∧ ids'.slots = ids.slots ++ [id] ∧
      ids'.numIds = ids.numIds + 1 := by
  have hne : ids.numIds ≠ INT_MAX := by rw [MAX_IDS] at h; rw [INT_MAX]; omega
  unfold RecentIds.record
  rw [if_neg hne, dif_pos h]
  exact ⟨_, rfl, rfl, rfl⟩

theorem RecentIds.record_error {f : Fault} (h : ids.record id = .error f) : f = .counter := by
  unfold RecentIds.record at h
  split at h
  · cases h
    rfl
  · split at h <;> cases h

/-- An identifier that the search denies can be recorded. -/
theorem exists_record_of_hasId (h : hasId ids id = .ok false) :
    ∃ ids', ids.record id = .ok ids' := by
  cases hr : ids.record id with
  | ok ids' => exact ⟨ids', rfl⟩
  | error f =>
    have hle : ids.numIds ≤ MAX_IDS := Nat.not_lt.mp fun hlt => hasId_eq_ok_false.mp h (Or.inr hlt)
    rw [RecentIds.record] at hr
    split at hr
    · next hmax =>
      rw [hmax] at hle
      exact absurd hle (by decide)
    · split at hr <;> cases hr

end Window

end DuckChat
