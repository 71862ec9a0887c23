import DuckChat.Receiver
import DuckChat.Roster

/-!
# Replies with an array, from end to end

A list and a who are written into a block by `strcpy`, sent, received into a cleared buffer and read
back by the same offsets. For a list the block is sized by what is written: a header, and a slot for
each channel. For a who it is not. Its header has 40 bytes, and `sizeof(struct request_who)` is 36;
the slots are those of the channel, and the block is sized by the number of all users.

## Main definitions

* `listWrites`, `whoWrites` — what is written, in order
* `ListRoundTrip`, `WhoRoundTrip` — a reply that is written in its block and read as it was meant
* `WhoFits` — the last name copied ends in the block

## Main results

* `exists_listRoundTrip` — every list, whatever `malloc` returns
* `exists_whoRoundTrip_iff` — a who, in every reachable state
-/

set_option autoImplicit false

namespace DuckChat

/-- A fresh block of `n` bytes. -/
def Heap.block (mem : Heap) (n : ℕ) : List UInt8 := (List.range n).map mem

def sizeofRequestWho : ℕ := sizeofInt + CHANNEL_MAX

/-- The writes of `case REQ_LIST` in front of its loop, and those of the loop. -/
def listWrites (names : List Name) : List Write :=
  [⟨0, leBytes sizeofInt TXT_LIST⟩, ⟨offTxtCount, leBytes sizeofInt names.length⟩] ++
    slotWrites offTxtChannels CHANNEL_MAX 0 (names.map CStr.bytes)

/-- The writes of `case REQ_WHO`. -/
def whoWrites (channel : Name) (nusernames : ℤ) (users : List Username) : List Write :=
  [⟨0, leBytes sizeofInt TXT_WHO⟩, ⟨offTxtWhoChannel, channel.bytes ++ [0]⟩,
      ⟨offTxtCount, leBytes sizeofInt (nusernames % 4294967296).toNat⟩] ++
    slotWrites offTxtUsers USERNAME_MAX 0 (users.map CStr.bytes)

/-- `reL` is the reply to a list: it is sent, it is `re_len` bytes long and all writes are inside,
and the client decodes the names of the channels in order. -/
structure ListRoundTrip (mem : Heap) (s : ServerState) (a : Sockaddr) (reL : List UInt8) :
    Prop where
  sent : encodeAct mem (reqList s a) = ⟨[(a, reL)], .ok s⟩
  reLen : (reL.length : ℤ) = offTxtChannels + CHANNEL_MAX * s.channels.count
  written : reL = putAll (mem.block reL.length) (listWrites s.names)
  inside : ∀ st ∈ listWrites s.names, st.Inside reL.length
  fits : reL.length ≤ BUFSIZ
  type : txtType (recvBuff reL) = TXT_LIST
  decoded : readList (recvBuff reL) = s.names.map CStr.bytes

/-- `who` is the reply to a who: it is sent, it is `who_len` bytes long and all writes are inside,
and the client decodes the channel and the names of its users in order. -/
structure WhoRoundTrip (mem : Heap) (s : ServerState) (a : Sockaddr) (c : Name) (chnl : Channel)
    (who : List UInt8) (us : List Username) : Prop where
  sent : encodeAct mem (reqWho s a c) = ⟨[(a, who)], .ok s⟩
  whoLen : (who.length : ℤ) = sizeofRequestWho + USERNAME_MAX * s.allUsers.count
  written : who = putAll (zeroed who.length) (whoWrites c chnl.numUsers us)
  inside : ∀ st ∈ whoWrites c chnl.numUsers us, st.Inside who.length
  users : chnl.entries.map (Option.map User.username) = us.map some
  type : txtType (recvBuff who) = TXT_WHO
  decoded : readWho (recvBuff who) = (c.bytes, us.map CStr.bytes)

/-- The name that is copied last: that of the last user, and without one that of the channel. -/
def lastName (c : Name) (chnl : Channel) : List UInt8 :=
  match chnl.entries.getLast? with
  | some (some usr) => usr.username.bytes
  | _ => c.bytes

/-- The channel has fewer users than the server, or as many and the last name is short. -/
def WhoFits (s : ServerState) (c : Name) (chnl : Channel) : Prop :=
  chnl.entries.length < s.allUsers.count ∨
    chnl.entries.length = s.allUsers.count ∧ (lastName c chnl).length < 28

instance decidableWhoFits (s : ServerState) (c : Name) (chnl : Channel) :
    Decidable (WhoFits s c chnl) :=
  inferInstanceAs (Decidable (chnl.entries.length < s.allUsers.count ∨
    chnl.entries.length = s.allUsers.count ∧ (lastName c chnl).length < 28))

/-! ### Lists -/

section Lists

variable {reL buf : List UInt8} {names : List Name} {i n : ℕ}

theorem listLoop_eq_putAll :
    listLoop reL i names =
      putAll reL (slotWrites offTxtChannels CHANNEL_MAX i (names.map CStr.bytes)) := by
  induction names generalizing reL i with
  | nil => rfl
  | cons c cs ih => exact ih

theorem textList_eq_putAll (mem : Heap) (names : List Name) :
    textList mem names =
      putAll (mem.block (offTxtChannels + CHANNEL_MAX * names.length)) (listWrites names) :=
  listLoop_eq_putAll

theorem fits_map_bytes {n : ℕ} (strs : List (CStr n)) :
    ∀ str ∈ strs.map CStr.bytes, 0 ∉ str ∧ str.length < n := by
  intro str hstr
  obtain ⟨c, -, rfl⟩ := List.mem_map.mp hstr
  exact ⟨c.noNul, c.fits⟩

/-- **The writes to a list stay in its block.** -/
theorem inside_listWrites (names : List Name) :
    ∀ st ∈ listWrites names, st.Inside (offTxtChannels + CHANNEL_MAX * names.length) := by
  have hoff : offTxtChannels = 8 := rfl
  refine List.forall_mem_append.mpr ⟨?_, ?_⟩
  · simp only [List.forall_mem_cons, Write.Inside, length_leBytes, offTxtCount, sizeofInt, hoff]
    exact ⟨by omega, by omega, fun _ hst => absurd hst List.not_mem_nil⟩
  · rw [inside_slotWrites_iff fun str hstr => (fits_map_bytes names str hstr).2]
    intro str hstr
    have hmem := List.mem_of_getLast? hstr
    have hlt := (fits_map_bytes names str hmem).2
    have hpos := List.length_pos_of_mem hmem
    obtain ⟨k, hk⟩ : ∃ k, (names.map CStr.bytes).length = k + 1 :=
      ⟨_, (Nat.sub_add_cancel hpos).symm⟩
    rw [hk, Nat.add_sub_cancel, Nat.zero_add, ← List.length_map CStr.bytes, hk, Nat.mul_add,
      Nat.mul_one]
    omega

theorem toInt_natCast (h : n < 2147483648) : toInt n = n :=
  Int.bmod_eq_of_le (by omega) (by omega)

/-- A field in front of the array, as the client finds it. -/
theorem slice_reply {sts : List Write} {strs : List (List UInt8)} {off k base w : ℕ}
    (hle : buf.length ≤ BUFSIZ) (hk : off + k ≤ buf.length) (hbase : off + k ≤ base) :
    slice (recvBuff (putAll buf (sts ++ slotWrites base w 0 strs))) off k =
      slice (putAll buf sts) off k := by
  rw [slice_recvBuff (by rwa [length_putAll]) (by rwa [length_putAll]),
    slice_putAll_slotWrites hbase]

/-- The array, as the client finds it. -/
theorem readSlots_reply {sts : List Write} {strs : List (List UInt8)} {base w : ℕ}
    (hle : buf.length ≤ BUFSIZ) (hn : ∀ str ∈ strs, 0 ∉ str ∧ str.length < w)
    (hin : ∀ st ∈ slotWrites base w 0 strs, st.Inside buf.length) :
    readSlots base w strs.length (recvBuff (putAll buf (sts ++ slotWrites base w 0 strs))) =
      strs := by
  rw [recvBuff_eq (by rwa [length_putAll])]
  exact readSlots_putAll _ hn hin

/-- A client decodes the names of a list. -/
theorem decode_listWrites (h : names.length ≤ 32) (hlen : buf.length = 8 + 32 * names.length) :
    txtType (recvBuff (putAll buf (listWrites names))) = TXT_LIST ∧
      readList (recvBuff (putAll buf (listWrites names))) = names.map CStr.bytes := by
  have hle : buf.length ≤ BUFSIZ := by
    rw [hlen, BUFSIZ]
    omega
  have htype : txtType (recvBuff (putAll buf (listWrites names))) = TXT_LIST := by
    rw [txtType, listWrites, slice_reply hle (by rw [sizeofInt]; omega) (by decide)]
    show ofLeBytes (slice (putNat (putNat buf 0 sizeofInt TXT_LIST) offTxtCount sizeofInt
      names.length) 0 sizeofInt) = TXT_LIST
    rw [slice_putNat_of_disjoint (Or.inr (by decide))]
    exact ofLeBytes_slice_putNat (by decide) (by rw [sizeofInt]; omega)
  have hnum : ofLeBytes (slice (recvBuff (putAll buf (listWrites names))) offTxtCount sizeofInt) =
      names.length := by
    rw [listWrites, slice_reply hle (by rw [offTxtCount, sizeofInt]; omega) (by decide)]
    show ofLeBytes (slice (putNat (putNat buf 0 sizeofInt TXT_LIST) offTxtCount sizeofInt
      names.length) offTxtCount sizeofInt) = names.length
    refine ofLeBytes_slice_putNat (Nat.lt_of_le_of_lt h (by decide)) ?_
    rw [length_putNat, offTxtCount, sizeofInt]
    omega
  refine ⟨htype, ?_⟩
  have hslots : readSlots offTxtChannels CHANNEL_MAX (names.map CStr.bytes).length
      (recvBuff (putAll buf (listWrites names))) = names.map CStr.bytes :=
    readSlots_reply hle (fits_map_bytes names)
      (by rw [hlen]; exact (List.forall_mem_append.mp (inside_listWrites names)).2)
  rw [List.length_map] at hslots
  rw [readList_eq, txtCount, hnum, toInt_natCast (by omega), Int.toNat_natCast, hslots]

/-- **Every list comes back**, whatever its block held. -/
theorem exists_listRoundTrip (mem : Heap) (s : ServerState) (a : Sockaddr)
    (h : 0 ≤ s.channels.count) : ∃ reL, ListRoundTrip mem s a reL := by
  have hcount : (s.names.length : ℤ) = s.channels.count := by
    rw [ServerState.names, chnlNames, List.length_map, s.channels.length_live]
    omega
  have hle : s.names.length ≤ 32 := by
    have hmax : s.channels.count ≤ 32 := s.channels.count_le
    omega
  have hblock : (mem.block (offTxtChannels + CHANNEL_MAX * s.names.length)).length =
      8 + 32 * s.names.length := by
    rw [Heap.block, List.length_map, List.length_range]
    rfl
  have hlen : (textList mem s.names).length = 8 + 32 * s.names.length := by
    rw [textList_eq_putAll, length_putAll, hblock]
  obtain ⟨htype, hnames⟩ := decode_listWrites hle hblock
  rw [← textList_eq_putAll] at htype hnames
  exact ⟨textList mem s.names,
    { sent := rfl
      reLen := by
        rw [hlen, ← hcount]
        rfl
      written := by
        rw [hlen]
        exact textList_eq_putAll mem s.names
      inside := by
        rw [hlen]
        exact inside_listWrites s.names
      fits := by
        rw [hlen, BUFSIZ]
        omega
      type := htype
      decoded := hnames }⟩

end Lists

open Three in
theorem exists_listRoundTrip_crowd :
    ∃ s, Reachable (line.nbrAddrs 1) s ∧ s.names = [common, chnlX, chnlY] ∧
      ∃ reL, ListRoundTrip (fun _ => 255) s (client 1) reL := by
  obtain ⟨s, hs, hp⟩ := exists_crowd (p := fun s => s.names = [common, chnlX, chnlY] ∧
    0 ≤ s.channels.count) (by decide)
  obtain ⟨hnames, h0⟩ := of_decide_eq_true hp
  exact ⟨s, hs, hnames, exists_listRoundTrip (fun _ => 255) s (client 1) h0⟩

/-! ### Whos -/

section Whos

variable {addrs : List Sockaddr} {mem : Heap} {s : ServerState} {a : Sockaddr} {c : Name}
  {chnl : Channel} {heap : List User} {es : List (Option User)} {us : List Username}
  {who buf : List UInt8} {i whoLen : ℕ} {k : ℤ}

/-- The server has no fewer than no users. -/
theorem Reachable.allUsers_nonneg (h : Reachable addrs s) : 0 ≤ s.allUsers.count := by
  induction h with
  | start unset now => exact Int.le_refl 0
  | step i _ hst ih =>
    have of_eq : ∀ {t t' : ServerState}, 0 ≤ t.allUsers.count → t'.allUsers = t.allUsers →
        0 ≤ t'.allUsers.count := fun h0 ht => by rwa [ht]
    cases outcome_of_react hst with
    | login h =>
      have hcount := (store_eq_ok_iff.mp (reqLogin_ok h).2.2.2.1).2.2.2
      omega
    | logout h =>
      obtain ⟨usr, hu, -, rfl⟩ := reqLogout_eq_ok_iff.mp h
      have hpos := Table.count_pos_of_mem (List.mem_of_find?_eq_some hu)
      show 0 ≤ (Table.count _) - 1
      omega
    | join h => exact of_eq ih (reqJoin_ok h).2.2.1
    | leave h =>
      obtain ⟨_, rfl⟩ := channels_of_reqLeave h
      exact ih
    | servJoin h =>
      obtain ⟨_, _, _, -, -, -, rfl⟩ := reqServJoin_ok h
      exact ih
    | servLeave h =>
      obtain ⟨_, -, -, rfl⟩ := exists_of_reqServLeave h
      exact ih
    | timeouts h => exact of_eq ih (timeoutScan_ok h).2.2.2
    | renewal h => exact of_eq ih (renewalPass_ok h).2.2.2.1
    | recorded => exact ih
    | idle => exact ih

theorem copyNames_eq_putAll :
    copyNames who i us =
      putAll who (slotWrites offTxtUsers USERNAME_MAX i (us.map CStr.bytes)) := by
  induction us generalizing who i with
  | nil => rfl
  | cons u us ih => exact ih

theorem textWho_eq_putAll :
    textWho c k us whoLen = putAll (zeroed whoLen) (whoWrites c k us) :=
  copyNames_eq_putAll

theorem inside_copy_iff {off n : ℕ} {str : List UInt8} :
    Write.Inside n ⟨off, str ++ [0]⟩ ↔ off + str.length + 1 ≤ n := by
  rw [Write.Inside, List.length_append, List.length_singleton, Nat.add_assoc]

/-- One turn of the loop of `case REQ_WHO`. -/
theorem whoLoop_cons {usr : User} (h : usr ∈ heap) :
    whoLoop heap whoLen i (some usr :: es) =
      if offTxtUsers + USERNAME_MAX * i + usr.username.bytes.length + 1 ≤ whoLen then
        (whoLoop heap whoLen (i + 1) es).map (usr.username :: ·)
      else .error .heap := by
  rw [whoLoop, deref_eq_ok_iff.mpr ⟨rfl, h⟩]
  cases whoLoop heap whoLen (i + 1) es <;> rfl

/-- **The loop of `case REQ_WHO`** ends well if every entry can be read and every copy stays in the
block. -/
theorem whoLoop_eq_ok_iff :
    whoLoop heap whoLen i es = .ok us ↔
      (∀ e ∈ es, Readable heap e) ∧ es.map (Option.map User.username) = us.map some ∧
        ∀ st ∈ slotWrites offTxtUsers USERNAME_MAX i (us.map CStr.bytes), st.Inside whoLen := by
  induction es generalizing i us with
  | nil =>
    rw [whoLoop, Except.ok.injEq, eq_comm]
    constructor
    · rintro rfl
      simp [slotWrites]
    · rintro ⟨-, hnil, -⟩
      simpa using hnil
  | cons e es ih =>
    constructor
    · intro h
      cases hd : deref heap e with
      | error f =>
        rw [whoLoop, hd] at h
        cases h
      | ok usr =>
        obtain ⟨rfl, hmem⟩ := deref_eq_ok_iff.mp hd
        rw [whoLoop_cons hmem] at h
        split at h
        · next hfits =>
          cases hr : whoLoop heap whoLen (i + 1) es with
          | error f =>
            rw [hr] at h
            cases h
          | ok names =>
            rw [hr] at h
            cases h
            obtain ⟨hread, hnames, hin⟩ := ih.mp hr
            refine ⟨List.forall_mem_cons.mpr ⟨⟨usr, hmem, rfl⟩, hread⟩, ?_,
              List.forall_mem_cons.mpr ⟨inside_copy_iff.mpr hfits, hin⟩⟩
            rw [List.map_cons, List.map_cons, hnames]
            rfl
        · cases h
    · rintro ⟨hread, hnames, hin⟩
      rw [List.forall_mem_cons] at hread
      obtain ⟨⟨usr, hmem, rfl⟩, hread⟩ := hread
      cases us with
      | nil => cases hnames
      | cons u us =>
        obtain ⟨hu, htail⟩ := List.cons_eq_cons.mp hnames
        cases hu
        obtain ⟨hhead, hrest⟩ := List.forall_mem_cons.mp hin
        rw [whoLoop_cons hmem, if_pos (inside_copy_iff.mp hhead), ih.mpr ⟨hread, htail, hrest⟩]
        rfl

/-- A who for a channel that exists. -/
theorem reqWho_found (hf : findChannel s.channels c = some chnl) :
    reqWho s a c =
      if 36 + USERNAME_MAX * s.allUsers.count.toNat < 8 + c.bytes.length + 1 then
        ⟨[], .error .heap⟩
      else
        match whoLoop s.heap (36 + USERNAME_MAX * s.allUsers.count.toNat) 0 chnl.entries with
        | .error f => ⟨[], .error f⟩
        | .ok us => ⟨[⟨a, .text (.who c chnl.numUsers us
            (36 + USERNAME_MAX * s.allUsers.count.toNat))⟩], .ok s⟩ := by
  rw [reqWho, hf]
  dsimp only
  split
  · rfl
  · cases whoLoop s.heap (36 + USERNAME_MAX * s.allUsers.count.toNat) 0 chnl.entries with
    | error f => rfl
    | ok us => rfl

theorem lastName_eq (h : chnl.entries.map (Option.map User.username) = us.map some) :
    lastName c chnl = ((us.map CStr.bytes).getLast?).getD c.bytes := by
  have hlast := congrArg List.getLast? h
  rw [List.getLast?_map, List.getLast?_map] at hlast
  rw [lastName, List.getLast?_map]
  cases hu : us.getLast? with
  | none =>
    rw [hu, Option.map_none, Option.map_eq_none_iff] at hlast
    rw [hlast]
    rfl
  | some u =>
    rw [hu, Option.map_some, Option.map_eq_some_iff] at hlast
    obtain ⟨e, he, hname⟩ := hlast
    obtain ⟨usr, rfl, rfl⟩ := Option.map_eq_some_iff.mp hname
    rw [he]
    rfl

theorem inside_whoWrites_iff (h : 8 ≤ whoLen) :
    (∀ st ∈ whoWrites c k us, st.Inside whoLen) ↔ 8 + c.bytes.length + 1 ≤ whoLen ∧
      ∀ st ∈ slotWrites offTxtUsers USERNAME_MAX 0 (us.map CStr.bytes), st.Inside whoLen := by
  have hwho : offTxtWhoChannel = 8 := rfl
  have hcount : offTxtCount = 4 := rfl
  have hint : sizeofInt = 4 := rfl
  have htype : 0 + 4 ≤ whoLen := by omega
  have hnum : 4 + 4 ≤ whoLen := by omega
  rw [whoWrites, List.forall_mem_append]
  refine and_congr_left fun _ => ?_
  simp only [List.forall_mem_cons, Write.Inside, length_leBytes, hwho, hcount, hint, htype, hnum,
    List.length_append, List.length_singleton, true_and, Nat.add_assoc, List.not_mem_nil,
    false_implies, implies_true, and_true]

/-- **When the writes to a who stay in its block.** -/
theorem whoFits_iff (h0 : 0 ≤ s.allUsers.count)
    (h : chnl.entries.map (Option.map User.username) = us.map some) :
    WhoFits s c chnl ↔ ¬ 36 + USERNAME_MAX * s.allUsers.count.toNat < 8 + c.bytes.length + 1 ∧
      ∀ st ∈ slotWrites offTxtUsers USERNAME_MAX 0 (us.map CStr.bytes),
        st.Inside (36 + USERNAME_MAX * s.allUsers.count.toNat) := by
  have hlen : chnl.entries.length = us.length := by
    simpa only [List.length_map] using congrArg List.length h
  have hc : c.bytes.length < 32 := c.fits
  have hslot : ∀ j, USERNAME_MAX * j = 32 * j := fun _ => rfl
  have hoff : offTxtUsers = 40 := rfl
  obtain ⟨n, hn⟩ := Int.eq_ofNat_of_zero_le h0
  rw [WhoFits, lastName_eq h, inside_slotWrites_iff fun str hstr => (fits_map_bytes us str hstr).2,
    hlen, hn, Int.toNat_natCast, hoff, List.length_map]
  simp only [hslot]
  cases hlast : (us.map CStr.bytes).getLast? with
  | none =>
    have hnil : us = [] := by simpa using hlast
    subst hnil
    simp only [Option.getD_none, List.length_nil, Option.mem_def, reduceCtorEq, false_implies,
      implies_true, and_true]
    omega
  | some str =>
    have hmem := List.mem_of_getLast? hlast
    have hlt : str.length < 32 := (fits_map_bytes us str hmem).2
    have hpos := List.length_pos_of_mem hmem
    rw [List.length_map] at hpos
    simp only [Option.getD_some, Option.mem_def, Option.some.injEq, forall_eq']
    omega

theorem toInt_emod (hlo : -2147483648 ≤ k) (hhi : k < 2147483648) :
    toInt (k % 4294967296).toNat = k := by
  have hnonneg : 0 ≤ k % 4294967296 := Int.emod_nonneg k (by decide)
  rw [Int.toNat_of_nonneg hnonneg]
  exact (Int.emod_bmod k 4294967296).trans (Int.bmod_eq_of_le (by omega) (by omega))

/-- What a client reads in front of the users of a who. -/
theorem header_whoWrites (hle : buf.length ≤ BUFSIZ) (hlo : -2147483648 ≤ k) (hhi : k < 2147483648)
    (h8 : 8 ≤ buf.length) :
    txtType (recvBuff (putAll buf (whoWrites c k us))) = TXT_WHO ∧
      txtCount (recvBuff (putAll buf (whoWrites c k us))) = k := by
  have hc : c.bytes.length < 32 := c.fits
  have hslice : ∀ off, off + sizeofInt ≤ 8 →
      slice (recvBuff (putAll buf (whoWrites c k us))) off sizeofInt =
        slice (putNat (put (putNat buf 0 sizeofInt TXT_WHO) offTxtWhoChannel (c.bytes ++ [0]))
          offTxtCount sizeofInt (k % 4294967296).toNat) off sizeofInt := by
    intro off hoff
    have husers : offTxtUsers = 40 := rfl
    rw [whoWrites, slice_reply hle (by omega) (by omega)]
    rfl
  constructor
  · rw [txtType, hslice 0 (by decide), slice_putNat_of_disjoint (Or.inr (by decide)),
      slice_put_of_disjoint (Or.inr (by decide))]
    exact ofLeBytes_slice_putNat (by decide) (by rw [sizeofInt]; omega)
  · have hnum : (k % 4294967296).toNat < 256 ^ sizeofInt := by
      rw [sizeofInt]
      omega
    rw [txtCount, hslice offTxtCount (by decide), ofLeBytes_slice_putNat hnum, toInt_emod hlo hhi]
    rw [length_put, length_putNat, offTxtCount, sizeofInt]
    omega

/-- A client decodes the channel of a who. -/
theorem stringAt_whoWrites (hle : buf.length ≤ BUFSIZ)
    (hroom : 8 + c.bytes.length + 1 ≤ buf.length) :
    StringAt (recvBuff (putAll buf (whoWrites c k us))) offTxtWhoChannel c.bytes := by
  have hc : c.bytes.length < 32 := c.fits
  have husers : offTxtUsers = 40 := rfl
  have hwho : offTxtWhoChannel = 8 := rfl
  have hput : StringAt (put (putNat buf 0 sizeofInt TXT_WHO) offTxtWhoChannel (c.bytes ++ [0]))
      offTxtWhoChannel c.bytes := stringAt_put (by rw [length_putNat]; exact hroom)
  rw [recvBuff_eq (by rwa [length_putAll])]
  refine StringAt.append ?_ _
  rw [whoWrites, List.cons_append, List.cons_append, putAll, putAll]
  refine hput.putAll (List.forall_mem_append.mpr ⟨fun st hst => ?_, fun st hst => ?_⟩)
  · rw [List.mem_singleton.mp hst]
    exact Or.inl (by rw [length_leBytes]; exact Nat.le_refl 8)
  · have hoff := le_off_of_mem_slotWrites hst
    omega

/-- **A client decodes a who** that was written in its block. -/
theorem decode_whoWrites (hle : buf.length ≤ BUFSIZ) (hlo : -2147483648 ≤ k)
    (hk : k.toNat = us.length) (hus : us.length ≤ 32)
    (hroom : 8 + c.bytes.length + 1 ≤ buf.length)
    (hin : ∀ st ∈ slotWrites offTxtUsers USERNAME_MAX 0 (us.map CStr.bytes),
      st.Inside buf.length) :
    txtType (recvBuff (putAll buf (whoWrites c k us))) = TXT_WHO ∧
      readWho (recvBuff (putAll buf (whoWrites c k us))) = (c.bytes, us.map CStr.bytes) := by
  have hheader : txtType (recvBuff (putAll buf (whoWrites c k us))) = TXT_WHO ∧
      txtCount (recvBuff (putAll buf (whoWrites c k us))) = k :=
    header_whoWrites hle hlo (by omega) (by omega)
  have hchannel : StringAt (recvBuff (putAll buf (whoWrites c k us))) offTxtWhoChannel c.bytes :=
    stringAt_whoWrites hle hroom
  have husers : readSlots offTxtUsers USERNAME_MAX (us.map CStr.bytes).length
      (recvBuff (putAll buf (whoWrites c k us))) = us.map CStr.bytes :=
    readSlots_reply hle (fits_map_bytes us) hin
  rw [List.length_map] at husers
  refine ⟨hheader.1, ?_⟩
  rw [readWho_eq, hchannel.cstring_slice c.noNul c.fits, hheader.2, hk, husers]

/-- The result of an encoded handler. -/
theorem encodeAct_result_ok {α : Type} {x : Act α} {v : α} {o : List (Sockaddr × List UInt8)}
    (h : encodeAct mem x = ⟨o, .ok v⟩) : x.result = .ok v := by
  have hr : (encodeAct mem x).result = .ok v := by rw [h]
  rw [encodeAct] at hr
  cases hx : x.result with
  | error f =>
    rw [hx] at hr
    cases hr
  | ok w =>
    rw [hx] at hr
    cases hr
    rfl

/-- As many names as the counter says, and no more than a table holds. -/
theorem length_names (hus : chnl.entries.map (Option.map User.username) = us.map some) :
    chnl.numUsers.toNat = us.length ∧ us.length ≤ 32 := by
  have hlen : us.length = chnl.entries.length := by
    simpa only [List.length_map] using (congrArg List.length hus).symm
  have hlive : chnl.entries.length = chnl.numUsers.toNat := chnl.connectedUsers.length_live
  have hle : chnl.numUsers ≤ 32 := chnl.connectedUsers.count_le
  rw [hlen, hlive]
  exact ⟨rfl, by omega⟩

/-- A who that comes back has been written in its block. -/
theorem WhoRoundTrip.fits {who : List UInt8} (h : WhoRoundTrip mem s a c chnl who us)
    (h0 : 0 ≤ s.allUsers.count) (hf : findChannel s.channels c = some chnl) :
    (∀ e ∈ chnl.entries, Readable s.heap e) ∧ WhoFits s c chnl := by
  have hok := encodeAct_result_ok h.sent
  rw [reqWho_found hf] at hok
  split at hok
  · cases hok
  · next hfits =>
    cases hloop : whoLoop s.heap (36 + USERNAME_MAX * s.allUsers.count.toNat) 0 chnl.entries with
    | error f =>
      rw [hloop] at hok
      cases hok
    | ok names =>
      obtain ⟨hread, hnames, hin⟩ := whoLoop_eq_ok_iff.mp hloop
      exact ⟨hread, (whoFits_iff h0 hnames).mpr ⟨hfits, hin⟩⟩

/-- A who that is written in its block comes back. -/
theorem whoRoundTrip_textWho (h0 : 0 ≤ s.allUsers.count)
    (hf : findChannel s.channels c = some chnl) (hint : -2147483648 ≤ chnl.numUsers)
    (hread : ∀ e ∈ chnl.entries, Readable s.heap e)
    (hus : chnl.entries.map (Option.map User.username) = us.map some) (hfits : WhoFits s c chnl) :
    WhoRoundTrip mem s a c chnl
      (textWho c chnl.numUsers us (36 + USERNAME_MAX * s.allUsers.count.toNat)) us := by
  obtain ⟨hroom, hin⟩ := (whoFits_iff h0 hus).mp hfits
  have hsent : reqWho s a c = ⟨[⟨a, .text (.who c chnl.numUsers us
      (36 + USERNAME_MAX * s.allUsers.count.toNat))⟩], .ok s⟩ := by
    rw [reqWho_found hf, if_neg hroom, whoLoop_eq_ok_iff.mpr ⟨hread, hus, hin⟩]
  obtain ⟨hnum, hnames⟩ := length_names hus
  generalize hn : 36 + USERNAME_MAX * s.allUsers.count.toNat = n at hroom hin hsent ⊢
  have hbuf : n ≤ BUFSIZ := by
    have hle : s.allUsers.count ≤ 32 := s.allUsers.count_le
    rw [← hn, BUFSIZ, USERNAME_MAX]
    omega
  have hroom : 8 + c.bytes.length + 1 ≤ n := Nat.le_of_not_lt hroom
  have hdecode := decode_whoWrites ((length_zeroed n).trans_le hbuf) hint hnum hnames
    (hroom.trans_eq (length_zeroed n).symm) (by rwa [length_zeroed])
  have hlength : (textWho c chnl.numUsers us n).length = n := by
    rw [textWho_eq_putAll, length_putAll, length_zeroed]
  rw [← textWho_eq_putAll] at hdecode
  exact
    { sent := by
        rw [hsent]
        rfl
      whoLen := by
        rw [hlength, ← hn, sizeofRequestWho, USERNAME_MAX]
        push_cast [Int.toNat_of_nonneg h0]
        rfl
      written := by
        rw [hlength]
        exact textWho_eq_putAll
      inside := by
        rw [hlength]
        exact (inside_whoWrites_iff (by omega)).mpr ⟨hroom, hin⟩
      users := hus
      type := hdecode.1
      decoded := hdecode.2 }

/-- **When a who comes back**: every entry of the channel can be read, and the last name copied ends
in the block. -/
theorem exists_whoRoundTrip_iff (mem : Heap) (s : ServerState) (a : Sockaddr) (c : Name)
    (chnl : Channel) (hs : Reachable addrs s) (hf : findChannel s.channels c = some chnl)
    (hint : -2147483648 ≤ chnl.numUsers) :
    (∃ who us, WhoRoundTrip mem s a c chnl who us) ↔
      (∀ e ∈ chnl.entries, Readable s.heap e) ∧ WhoFits s c chnl := by
  have h0 := hs.allUsers_nonneg
  constructor
  · rintro ⟨who, us, h⟩
    exact h.fits h0 hf
  · rintro ⟨hread, hfits⟩
    obtain ⟨users, husers⟩ := exists_users hread
    have hus : chnl.entries.map (Option.map User.username) =
        (users.map User.username).map some := by
      rw [husers, List.map_map, List.map_map]
      rfl
    exact ⟨_, _, whoRoundTrip_textWho h0 hf hint hread hus hfits⟩

end Whos

namespace Three

/-- Common after one user has joined it once or twice. -/
def commonOf (es : List (Option User)) (h : es.length ≤ MAX_USERS) : Channel :=
  ⟨common, Table.ofList es h, 0⟩

/-- A server whose only user has joined Common twice. -/
def joinedTwice : ServerState :=
  { withUser 1 with
    channels := Table.ofList [commonOf [some (user 1), some (user 1)] (by decide)]
      one_le_MAX_USERS }

theorem reachable_joinedTwice : Reachable (line.nbrAddrs 1) joinedTwice :=
  reachable_withUser.step (.datagram (client 1) (.client (.join common)) 0 0) (by rfl)

end Three

open Three in
theorem exists_whoRoundTrip_withUser :
    ∃ who us, WhoRoundTrip (fun _ => 255) (withUser 1) (client 1) common
      (commonOf [some (user 1)] one_le_MAX_USERS) who us :=
  (exists_whoRoundTrip_iff (fun _ => 255) (withUser 1) (client 1) common
    (commonOf [some (user 1)] one_le_MAX_USERS) reachable_withUser (by rfl) (by decide)).mpr
    (by decide)

open Three in
/-- The reply for a channel that its one user has joined twice is written behind its block. -/
theorem not_exists_whoRoundTrip_joinedTwice :
    ¬ ∀ (addrs : List Sockaddr) (mem : Heap) (s : ServerState) (a : Sockaddr) (c : Name)
        (chnl : Channel), Reachable addrs s → findChannel s.channels c = some chnl →
        ∃ who us, WhoRoundTrip mem s a c chnl who us := by
  intro h
  obtain ⟨who, us, hwho⟩ := h (line.nbrAddrs 1) (fun _ => 0) joinedTwice (client 1) common
    (commonOf [some (user 1), some (user 1)] (by decide)) reachable_joinedTwice (by rfl)
  have hheap : (reqWho joinedTwice (client 1) common).result = .error .heap := by rfl
  cases hheap.symm.trans (encodeAct_result_ok hwho.sent)

end DuckChat
