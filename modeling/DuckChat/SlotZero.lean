import DuckChat.Timers

/-!
# The first slot

Common is put in the first slot of the channel table, and of every neighbour's record, at the start.
The renewal pass and the timeout scan begin at the second slot, and a login works on the first
without looking at its name. Two requests can empty the slot: the leave of the last user of Common,
and any leave of a neighbour whose record has one entry.

## Main definitions

* `SlotZero` — the first slot holds Common, everywhere
* `KeepsZero` — an input that leaves it there

## Main results

* `slotZero_iff_keepsZero` — one input
* `common_first` — every run
-/

set_option autoImplicit false

namespace DuckChat

/-- The first channel is Common, and the first subscription of every neighbour is. -/
def SlotZero (s : ServerState) : Prop :=
  (1 ≤ s.channels.count ∧ s.names.head? = some common) ∧
    ∀ srvr ∈ s.cnnctSrvrs, 1 ≤ srvr.numChnnls ∧ srvr.subs.head? = some common

/-- A leave of Common does not find its counter at 1, and a leave of a server does not find its
counter at 1, whatever the channel it names. -/
def KeepsZero (s : ServerState) : Input → Prop
  | .datagram _ (.client (.leave c)) _ _ =>
      c = common → ∀ chnl ∈ findChannel s.channels common, chnl.numUsers ≠ 1
  | .datagram a (.s2s (.leave _)) _ _ =>
      ∀ srvr ∈ findServerAddress s.cnnctSrvrs a, srvr.numChnnls ≠ 1
  | _ => True

instance decidableKeepsZero (s : ServerState) : ∀ i, Decidable (KeepsZero s i)
  | .datagram _ (.client (.leave c)) _ _ =>
      inferInstanceAs (Decidable
        (c = common → ∀ chnl ∈ findChannel s.channels common, chnl.numUsers ≠ 1))
  | .datagram a (.s2s (.leave _)) _ _ =>
      inferInstanceAs (Decidable
        (∀ srvr ∈ findServerAddress s.cnnctSrvrs a, srvr.numChnnls ≠ 1))
  | .datagram _ (.client (.login _)) _ _ => .isTrue trivial
  | .datagram _ (.client .logout) _ _ => .isTrue trivial
  | .datagram _ (.client (.join _)) _ _ => .isTrue trivial
  | .datagram _ (.client (.say _ _)) _ _ => .isTrue trivial
  | .datagram _ (.client .list) _ _ => .isTrue trivial
  | .datagram _ (.client (.who _)) _ _ => .isTrue trivial
  | .datagram _ (.client (.other _)) _ _ => .isTrue trivial
  | .datagram _ (.s2s (.join _)) _ _ => .isTrue trivial
  | .datagram _ (.s2s (.say _)) _ _ => .isTrue trivial
  | .timeouts _ => .isTrue trivial
  | .renewal _ => .isTrue trivial

section SlotZero

variable {s s' : ServerState} {i : Input} {srvr srvr' : Server} {now : ℤ} {a : Sockaddr}

/-- A table with a first element has a counter of at least 1. -/
theorem Table.one_le_count_of_head? {α : Type} {cap : ℕ} {t : Table α cap} {x : α}
    (h : t.live.head? = some x) : 1 ≤ t.count :=
  Table.count_pos_of_mem (List.mem_of_mem_head? h)

/-- The counters follow from the names. -/
theorem slotZero_iff :
    SlotZero s ↔ s.names.head? = some common ∧
      ∀ srvr ∈ s.cnnctSrvrs, srvr.subs.head? = some common := by
  constructor
  · rintro ⟨⟨-, hn⟩, hs⟩
    exact ⟨hn, fun srvr hm => (hs srvr hm).2⟩
  · rintro ⟨hn, hs⟩
    refine ⟨⟨?_, hn⟩, fun srvr hm => ⟨Table.one_le_count_of_head? (hs srvr hm), hs srvr hm⟩⟩
    rw [ServerState.names, chnlNames, List.head?_map, Option.map_eq_some_iff] at hn
    obtain ⟨chnl, hc, -⟩ := hn
    exact Table.one_le_count_of_head? hc

/-- Dropping the last entry keeps the first, if that is another one. -/
theorem head?_dropLast_eq_some_iff {α : Type} {xs : List α} {x : α} (h : xs.head? = some x) :
    xs.dropLast.head? = some x ↔ xs.length ≠ 1 := by
  rw [List.head?_dropLast, h]
  have hpos := List.length_pos_of_mem (List.mem_of_mem_head? h)
  by_cases h1 : 1 < xs.length
  · simp [h1, Nat.ne_of_gt h1]
  · simp [h1]
    omega

/-- The scan begins at the second slot, so it never drops the first entry. -/
theorem head?_timeoutLoop {n j : ℕ} (h1 : 1 ≤ j) (h : timeoutLoop now n j srvr = .ok srvr') :
    srvr'.subs.head? = srvr.subs.head? := by
  induction n generalizing j srvr with
  | zero =>
    cases h
    rfl
  | succ n ih =>
    rw [timeoutLoop] at h
    split at h
    · cases h
      rfl
    · next name hname =>
      split at h
      · obtain ⟨hlt, -⟩ := List.getElem?_eq_some_iff.mp hname
        have h0 : 0 ≤ srvr.numChnnls :=
          Int.le_of_lt (Table.count_pos_of_mem (List.mem_of_getElem? hname))
        rw [removeAdjChannel_eq_ok h0] at h
        have hdrop := ih (Nat.le_succ_of_le h1) h
        rw [hdrop, subs_setNumChnnls_pred, List.head?_dropLast, if_pos (by omega)]
      · exact ih (Nat.le_succ_of_le h1) h

/-- A join appends, so the first entry stays where there is one. -/
theorem head?_noteJoin {c : Name} (hz : srvr.subs.head? = some common)
    (h : noteJoin srvr c now = .ok srvr') : srvr'.subs.head? = some common := by
  rcases noteJoin_cases h with ⟨pos, -, rfl⟩ | ⟨-, h⟩
  · exact hz
  · rw [(addChSrv_eq_ok_iff.mp h).2.2.2.1, List.head?_append, hz]
    rfl

/-- The first entries after a leave of a server. -/
theorem head?_storeServer_left (hs : findServerAddress s.cnnctSrvrs a = some srvr)
    (hz : ∀ old ∈ s.cnnctSrvrs, old.subs.head? = some common) :
    (∀ new ∈ storeServer s.cnnctSrvrs a (srvr.setNumChnnls (srvr.numChnnls - 1)),
      new.subs.head? = some common) ↔ srvr.numChnnls ≠ 1 := by
  obtain ⟨hm, ha⟩ := findServerAddress_some hs
  have hlen : srvr.numChnnls ≠ 1 ↔ srvr.subs.length ≠ 1 := by
    have hpos := Table.one_le_count_of_head? (hz srvr hm)
    have hl := srvr.subChannels.length_live
    rw [Server.numChnnls, Server.subs, hl]
    omega
  have hnew : (srvr.setNumChnnls (srvr.numChnnls - 1)).subs.head? = some common ↔
      srvr.numChnnls ≠ 1 := by
    rw [subs_setNumChnnls_pred, head?_dropLast_eq_some_iff (hz srvr hm), hlen]
  rw [← hnew]
  constructor
  · intro hall
    have hin : a ∈ s.cnnctSrvrs.map Server.addr := List.mem_map.mpr ⟨srvr, hm, ha⟩
    have hfind := findServerAddress_storeServer_self
      (show (srvr.setNumChnnls (srvr.numChnnls - 1)).addr = a from ha) hin
    exact hall _ (findServerAddress_some hfind).1
  · intro hp new hmem
    rcases mem_replaceFirst hmem with rfl | hold
    · exact hp
    · exact hz new hold

/-- The step lemma for the records. -/
theorem head?_subs_of_react (hz : ∀ srvr ∈ s.cnnctSrvrs, srvr.subs.head? = some common)
    (hk : KeepsZero s i) (h : (react s i).result = .ok s') :
    ∀ srvr ∈ s'.cnnctSrvrs, srvr.subs.head? = some common := by
  have hstep := tables_of_react h
  generalize s'.cnnctSrvrs = srvs' at hstep
  cases hstep with
  | kept => exact hz
  | joined hs hj =>
    intro new hm
    rcases mem_replaceFirst hm with rfl | hold
    · exact head?_noteJoin (hz _ (findServerAddress_some hs).1) hj
    · exact hz new hold
  | left hs => exact (head?_storeServer_left hs hz).mpr (hk _ hs)
  | scanned hscan =>
    intro new hm
    obtain ⟨old, hold, hloop⟩ := exists_rel_of_mem (forall₂_timeoutServers hscan) hm
    rw [head?_timeoutLoop (Nat.le_refl 1) hloop, hz old hold]

/-- The step lemma for the channels. -/
theorem head?_names_of_react (hz : s.names.head? = some common) (hk : KeepsZero s i)
    (h : (react s i).result = .ok s') : s'.names.head? = some common := by
  rcases names_of_react h with hn | ⟨d, -, hn⟩ | ⟨d, a, drawn, now, chnl, rfl, hf, h1, hn⟩
  · rw [hn, hz]
  · rw [hn, List.head?_append, hz]
    rfl
  · have hd : d ≠ common := by
      rintro rfl
      exact hk rfl chnl hf h1
    obtain ⟨rest, hl⟩ : ∃ rest, s.names = common :: rest := by
      cases hl : s.names with
      | nil => rw [hl] at hz; cases hz
      | cons x rest => rw [hl] at hz; cases hz; exact ⟨rest, rfl⟩
    rw [hn, hl, List.erase_cons_tail (by simpa using hd.symm)]
    rfl

/-- **The first slot is lost by these two requests and by no others.** -/
theorem slotZero_iff_keepsZero {addrs : List Sockaddr} (hs : Reachable addrs s) (hz : SlotZero s)
    (h : (react s i).result = .ok s') : SlotZero s' ↔ KeepsZero s i := by
  obtain ⟨hn, hsubs⟩ := slotZero_iff.mp hz
  rw [slotZero_iff]
  refine ⟨?_, fun hk => ⟨head?_names_of_react hn hk h, head?_subs_of_react hsubs hk h⟩⟩
  rintro ⟨hn', hsubs'⟩
  rcases i with ⟨a, (rq | m), drawn, now⟩ | now | now
  · cases rq with
    | leave c =>
      rintro rfl chnl hf h1
      rw [names_reqLeave_last h hf h1] at hn'
      exact hs.nodup_names.not_mem_erase (List.mem_of_mem_head? hn')
    | _ => exact trivial
  · cases m with
    | leave c =>
      intro srvr hs
      have hr : (reqServLeave s a c).result = .ok s' := h
      obtain ⟨srvr', hs', -, rfl⟩ := exists_of_reqServLeave hr
      obtain rfl : srvr' = srvr := Option.some.inj (hs'.symm.trans hs)
      exact (head?_storeServer_left hs hsubs).mp hsubs'
    | _ => exact trivial
  · exact trivial
  · exact trivial

end SlotZero

/-- **Slot 0 holds Common** in every state of every run of inputs that keep it where they are
taken. -/
theorem common_first (addrs : List Sockaddr) (unset now : ℤ) (is : List Input) (s : ServerState)
    (h : Run ServerState.next KeepsZero (ServerState.start addrs unset now) is s) :
    SlotZero s := by
  have hinv : Reachable addrs s ∧ SlotZero s := by
    refine h.invariant (P := fun t => Reachable addrs t ∧ SlotZero t) ?_ ⟨.start unset now, ?_⟩
    · rintro t i t' ⟨hr, hz⟩ hk hnext
      have hst := next_eq_some_iff.mp hnext
      exact ⟨hr.step i hst, (slotZero_iff_keepsZero hr hz hst).mpr hk⟩
    · refine slotZero_iff.mpr ⟨rfl, fun srvr hm => ?_⟩
      obtain ⟨a, -, rfl⟩ := List.mem_map.mp hm
      rfl
  exact hinv.2

namespace Three

/-- Two users join Common and one leaves it; a neighbour joins a channel and leaves it. -/
def comings : List Input :=
  [enter 0, ask 0 (.join common), enter 1, ask 1 (.join common), ask 0 (.leave common),
    .datagram (addr 0) (.s2s (.join chnlX)) 0 5, .datagram (addr 0) (.s2s (.leave chnlX)) 0 9]

end Three

open Three in
theorem common_first_on_comings :
    ∃ s, Run ServerState.next KeepsZero (ServerState.start [addr 0] 0 0) comings s ∧
      SlotZero s := by
  have h : (execute ServerState.next KeepsZero (ServerState.start [addr 0] 0 0) comings).any
      (fun _ => true) = true := by
    decide
  obtain ⟨s, hr, -⟩ := exists_run_of_execute h
  exact ⟨s, hr, common_first [addr 0] 0 0 comings s hr⟩

open Three in
/-- The only user of Common leaves it, and the table of channels is empty. And a neighbour whose
record lists Common only leaves another channel: its record is empty. -/
theorem common_not_always_first :
    (¬ ∀ (addrs : List Sockaddr) (unset now : ℤ) (is : List Input) (s : ServerState),
        Run ServerState.next (fun _ _ => True) (ServerState.start addrs unset now) is s →
        1 ≤ s.channels.count) ∧
      ¬ ∀ (addrs : List Sockaddr) (unset now : ℤ) (is : List Input) (s : ServerState),
        Run ServerState.next (fun _ _ => True) (ServerState.start addrs unset now) is s →
        ∀ srvr ∈ s.cnnctSrvrs, 1 ≤ srvr.numChnnls := by
  constructor
  · intro h
    have hex : (execute ServerState.next (fun _ _ => True) (ServerState.start [] 0 0)
        [enter 0, ask 0 (.join common), ask 0 (.leave common)]).any
          (fun s => s.channels.count = 0) = true := by
      decide
    obtain ⟨s, hr, hs⟩ := exists_run_of_execute hex
    have h1 := h [] 0 0 _ s hr
    have h0 := of_decide_eq_true hs
    omega
  · intro h
    have hex : (execute ServerState.next (fun _ _ => True) (ServerState.start [addr 0] 0 0)
        [.datagram (addr 0) (.s2s (.leave chnlX)) 0 5]).any
          (fun s => ∃ srvr ∈ s.cnnctSrvrs, srvr.numChnnls = 0) = true := by
      decide
    obtain ⟨s, hr, hs⟩ := exists_run_of_execute hex
    obtain ⟨srvr, hm, h0⟩ := of_decide_eq_true hs
    have h1 := h [addr 0] 0 0 _ s hr srvr hm
    omega

end DuckChat
