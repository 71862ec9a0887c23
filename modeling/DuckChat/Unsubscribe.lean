import DuckChat.Timers
import DuckChat.Lib.Shrink

/-!
# Which subscription goes

`remove_adj_channel` is told which channel a neighbour has left, and the timeout scan which entry is
too old. Both end in a lower counter and in nothing else, so it is the last entry that goes. What is
meant happens when the last entry is the one that is meant.

## Main definitions

* `RemovesNamed` — a removal deletes the entry of the name, or nothing if there is none
* `Server.joins`, `isStale`, `isLate` — the entries with their timers, and which are too old
* `ScanExact` — a scan of one table drops the stale entries and no others
* `StaleLast` — the stale entries are at the end, and as many as the scan drops

## Main results

* `removesNamed_iff` — the removal is right for the last name only
* `timeoutLoop_eq` — the scan is a loop that lowers its own bound
* `scanExact_iff` — when the scan is right
* `staleLast_iff_of_fits` — that is, when no entry but the last is stale
-/

set_option autoImplicit false

namespace DuckChat

/-! ### A removal by name -/

/-- The removal of a name deletes its entry from both arrays, or changes nothing if the name is not
listed. -/
def RemovesNamed (srvr : Server) (c : Name) : Prop :=
  ∃ srvr', removeAdjChannel srvr c = .ok srvr' ∧ srvr'.addr = srvr.addr ∧
    (∀ p, srvr.subs[p]? = some c →
      srvr'.subs = srvr.subs.eraseIdx p ∧ srvr'.timers.live = srvr.timers.live.eraseIdx p ∧
        srvr'.numChnnls = srvr.numChnnls - 1) ∧
    (c ∉ srvr.subs →
      srvr'.subs = srvr.subs ∧ srvr'.timers.live = srvr.timers.live ∧
        srvr'.numChnnls = srvr.numChnnls)

section Removal

variable {srvr : Server} {c : Name}

theorem timers_setNumChnnls_pred (srvr : Server) :
    (srvr.setNumChnnls (srvr.numChnnls - 1)).timers.live = srvr.timers.live.dropLast := by
  have hl := srvr.timers.length_live
  have hs := srvr.inStep
  simp only [Server.setNumChnnls, Server.numChnnls, Table.truncate]
  rw [List.dropLast_eq_take, hl]
  congr 1
  omega

theorem eraseIdx_of_succ_eq_length {α : Type} {xs : List α} {p : ℕ} (h : p + 1 = xs.length) :
    xs.eraseIdx p = xs.dropLast := by
  rw [List.eraseIdx_eq_take_drop_succ, h, List.drop_length, List.append_nil, List.dropLast_eq_take,
    ← h]
  rfl

/-- What goes with the last element is the last element. -/
theorem getLast?_eq_some_of_not_mem_dropLast {α : Type} {xs : List α} {x : α} (hx : x ∈ xs)
    (hgone : x ∉ xs.dropLast) : xs.getLast? = some x := by
  have hne := List.ne_nil_of_mem hx
  rw [← List.dropLast_append_getLast hne] at hx
  rcases List.mem_append.mp hx with hx | hx
  · exact absurd hx hgone
  · rw [List.getLast?_eq_some_getLast hne, List.mem_singleton.mp hx]

theorem succ_eq_length_of_getLast? {α : Type} {xs : List α} {x : α} {p : ℕ} (hnd : xs.Nodup)
    (hp : xs[p]? = some x) (hlast : xs.getLast? = some x) : p + 1 = xs.length := by
  rw [List.getLast?_eq_getElem?] at hlast
  obtain ⟨hlt, hpx⟩ := List.getElem?_eq_some_iff.mp hp
  obtain ⟨hlt', hend⟩ := List.getElem?_eq_some_iff.mp hlast
  have heq := hnd.getElem_inj_iff.mp (hpx.trans hend.symm)
  omega

/-- **`remove_adj_channel` removes the named subscription exactly when it is the last one.** -/
theorem removesNamed_iff (h0 : 0 ≤ srvr.numChnnls) (hnd : srvr.subs.Nodup) (c : Name) :
    RemovesNamed srvr c ↔ srvr.subs.getLast? = some c := by
  have hrem := removeAdjChannel_eq_ok h0 c
  have hsubs := subs_setNumChnnls_pred srvr
  have hcount := numChnnls_setNumChnnls_pred srvr
  constructor
  · rintro ⟨srvr', hr, -, hthere, hnot⟩
    rw [hrem] at hr
    cases hr
    by_cases hc : c ∈ srvr.subs
    · obtain ⟨p, hp⟩ := List.mem_iff_getElem?.mp hc
      obtain ⟨heq, -, -⟩ := hthere p hp
      rw [hsubs] at heq
      have hgone : c ∉ srvr.subs.eraseIdx p := by
        obtain ⟨hlt, rfl⟩ := List.getElem?_eq_some_iff.mp hp
        rw [← hnd.erase_getElem]
        exact hnd.not_mem_erase
      rw [← heq] at hgone
      exact getLast?_eq_some_of_not_mem_dropLast hc hgone
    · obtain ⟨-, -, heq⟩ := hnot hc
      rw [hcount] at heq
      omega
  · intro hlast
    refine ⟨_, hrem, rfl, fun p hp => ?_, fun hc => absurd (List.mem_of_getLast? hlast) hc⟩
    have hpos := succ_eq_length_of_getLast? hnd hp hlast
    refine ⟨?_, ?_, hcount⟩
    · rw [hsubs, eraseIdx_of_succ_eq_length hpos]
    · rw [timers_setNumChnnls_pred, eraseIdx_of_succ_eq_length (by rw [length_timers, hpos])]

end Removal

/-- A neighbour subscribed to Common, to x since time 0 and to y since time 100. -/
def Three.listed : Server where
  addr := addr 0
  subChannels := Table.ofList [common, chnlX, ⟨ascii "y", by decide, by decide⟩] (by decide)
  timers := Table.ofList [0, 0, 100] (show 3 ≤ MAX_CHANNELS by decide)
  inStep := rfl

open Three in
theorem removesNamed_listed : RemovesNamed listed ⟨ascii "y", by decide, by decide⟩ :=
  (removesNamed_iff (by decide) (by decide) _).mpr (by decide)

/-- The neighbour leaves x, and y is what it loses. -/
theorem not_removesNamed_listed : ¬ RemovesNamed Three.listed Three.chnlX := by
  rintro ⟨srvr', hr, -, hthere, -⟩
  cases hr
  exact absurd (hthere 1 rfl).1 (by decide)

/-! ### A removal by age -/

/-- The subscriptions of a neighbour with the clock readings of its joins. -/
def Server.joins (srvr : Server) : List (Name × ℤ) := srvr.subs.zip srvr.timers.live

/-- The entry at an index is more than two minutes old. -/
def isStale (srvr : Server) (now : ℤ) (i : ℕ) : Bool :=
  decide (now - srvr.timers.live.getD i 0 > MIN_2)

/-- The scan takes the entry at an index to be more than two minutes old. -/
def isLate (srvr : Server) (now : ℤ) (i : ℕ) : Bool :=
  (srvr.subs[i]?).any fun name => decide (channelElapse srvr name now > MIN_2)

/-- A pass over one table drops the stale entries, except the first, and no others. -/
def ScanExact (srvr : Server) (now : ℤ) : Prop :=
  ∃ srvr', timeoutLoop now srvr.numChnnls.toNat 1 srvr = .ok srvr' ∧ srvr'.addr = srvr.addr ∧
    srvr'.numChnnls = srvr'.joins.length ∧
    srvr'.joins =
      srvr.joins.take 1 ++ (srvr.joins.drop 1).filter fun e => decide (now - e.2 ≤ MIN_2)

/-- The stale entries are those from an index `k` on, and so many of the entries in front of it are
taken to be late as there are entries from `k` on; or one fewer, and the entry at `k` is taken to be
late as well. -/
def StaleLast (srvr : Server) (now : ℤ) : Prop :=
  ∃ k, Ends (isLate srvr now) 1 srvr.subs.length k ∧
    ∀ i, 1 ≤ i → i < srvr.subs.length → (isStale srvr now i = true ↔ k ≤ i)

section Scan

variable {srvr : Server} {name : Name} {now : ℤ} {i j k m n : ℕ}

theorem Table.truncate_truncate {α : Type} {cap : ℕ} {t : Table α cap} {n n' : ℤ} (h : n' ≤ n) :
    (t.truncate n).truncate n' = t.truncate n' := by
  refine Table.ext ?_ ?_
  · simp only [Table.truncate, List.take_take]
    congr 1
    omega
  · simp only [Table.truncate]
    omega

theorem Table.truncate_self {α : Type} {cap : ℕ} {t : Table α cap} {n : ℤ} (h : t.count ≤ n) :
    t.truncate n = t := by
  refine Table.ext ?_ ?_
  · refine List.take_of_length_le ?_
    have := t.length_live
    omega
  · simp only [Table.truncate]
    omega

theorem setNumChnnls_setNumChnnls {n n' : ℤ} (h : n' ≤ n) :
    (srvr.setNumChnnls n).setNumChnnls n' = srvr.setNumChnnls n' := by
  simp only [Server.setNumChnnls, Table.truncate_truncate h]

theorem setNumChnnls_self : srvr.setNumChnnls srvr.numChnnls = srvr := by
  have hs := srvr.inStep
  simp only [Server.setNumChnnls, Server.numChnnls, Table.truncate_self (Int.le_refl _),
    Table.truncate_self (Int.le_of_eq hs)]

/-- The names and timers of a shortened table. -/
theorem subs_setNumChnnls (srvr : Server) (m : ℕ) :
    (srvr.setNumChnnls m).subs = srvr.subs.take m := by
  simp only [Server.subs, Server.setNumChnnls, Table.truncate, Int.toNat_natCast]

theorem timers_setNumChnnls (srvr : Server) (m : ℕ) :
    (srvr.setNumChnnls m).timers.live = srvr.timers.live.take m := by
  simp only [Server.setNumChnnls, Table.truncate, Int.toNat_natCast]

theorem numChnnls_setNumChnnls (hm : (m : ℤ) ≤ srvr.numChnnls) :
    (srvr.setNumChnnls m).numChnnls = m := by
  simp only [Server.numChnnls, Server.setNumChnnls, Table.truncate] at hm ⊢
  omega

/-- What `channel_elapse` returns for the name at an index. -/
theorem channelElapse_eq (hnd : srvr.subs.Nodup) (hi : srvr.subs[i]? = some name) :
    channelElapse srvr name now = toInt (now - srvr.timers.live.getD i 0) := by
  rw [channelElapse, (findChannelServer_eq_some_iff hnd).mpr hi]

/-- An entry that is still in a shortened table is as late as it was. -/
theorem isLate_setNumChnnls (hnd : srvr.subs.Nodup) (hi : i < m) :
    isLate (srvr.setNumChnnls m) now i = isLate srvr now i := by
  have hget : (srvr.setNumChnnls m).subs[i]? = srvr.subs[i]? := by
    rw [subs_setNumChnnls, List.getElem?_take_of_lt hi]
  rw [isLate, isLate, hget]
  cases hname : srvr.subs[i]? with
  | none => rfl
  | some name =>
    have hnd' : (srvr.setNumChnnls m).subs.Nodup := by
      rw [subs_setNumChnnls]
      exact hnd.sublist (List.take_sublist _ _)
    simp only [Option.any_some]
    rw [channelElapse_eq hnd hname, channelElapse_eq hnd' (hget.trans hname), timers_setNumChnnls,
      List.getD_eq_getElem?_getD, List.getElem?_take_of_lt hi, ← List.getD_eq_getElem?_getD]

/-- **The scan of one table** lowers the counter to where the shrinking loop ends. -/
theorem timeoutLoop_eq (now : ℤ) (n j : ℕ) (hnd : srvr.subs.Nodup)
    (hm : (m : ℤ) ≤ srvr.numChnnls) :
    timeoutLoop now n j (srvr.setNumChnnls m) =
      .ok (srvr.setNumChnnls (shrink (isLate srvr now) n j m : ℕ)) := by
  induction n generalizing j m with
  | zero => rfl
  | succ n ih =>
    have hlen : srvr.numChnnls = srvr.subs.length := numChnnls_eq_length (by omega)
    have hget : (srvr.setNumChnnls m).subs[j]? = if j < m then srvr.subs[j]? else none := by
      rw [subs_setNumChnnls, List.getElem?_take]
    rw [timeoutLoop, shrink]
    by_cases hj : j < m
    · obtain ⟨name, hname⟩ : ∃ name, srvr.subs[j]? = some name :=
        ⟨_, List.getElem?_eq_getElem (by omega)⟩
      rw [if_pos hj] at hget ⊢
      have hlate : (channelElapse (srvr.setNumChnnls m) name now > MIN_2) ↔
          isLate srvr now j = true := by
        rw [← isLate_setNumChnnls hnd hj, isLate, hget, hname, Option.any_some, decide_eq_true_iff]
      rw [hget, hname]
      simp only [hlate]
      split
      · have hcount := numChnnls_setNumChnnls hm
        have hpred : (m : ℤ) - 1 = ((m - 1 : ℕ) : ℤ) := by omega
        rw [removeAdjChannel_eq_ok (by omega), hcount, setNumChnnls_setNumChnnls (by omega), hpred]
        exact ih _ (by omega)
      · exact ih _ hm
    · rw [if_neg hj] at hget ⊢
      rw [hget]

theorem length_joins (srvr : Server) : srvr.joins.length = srvr.subs.length := by
  rw [Server.joins, List.length_zip, length_timers, Nat.min_self]

theorem joins_setNumChnnls (srvr : Server) (m : ℕ) :
    (srvr.setNumChnnls m).joins = srvr.joins.take m := by
  rw [Server.joins, subs_setNumChnnls, timers_setNumChnnls, Server.joins]
  exact List.take_zipWith.symm

/-- A list is cut where a filter cuts it exactly if the test fails from there on and nowhere in
front of it. -/
theorem take_eq_filter_iff {α : Type} {p : α → Bool} {xs : List α} (hk : k ≤ xs.length) :
    xs.take k = xs.filter p ↔ ∀ i x, xs[i]? = some x → (p x = true ↔ i < k) := by
  have hsplit : xs.filter p = (xs.take k).filter p ++ (xs.drop k).filter p := by
    rw [← List.filter_append, List.take_append_drop]
  constructor
  · intro heq
    have hall : ∀ x ∈ xs.take k, p x = true := fun x hx => List.of_mem_filter (heq ▸ hx)
    have hnone : (xs.drop k).filter p = [] := by
      rw [List.filter_eq_self.mpr hall, heq] at hsplit
      exact List.self_eq_append_right.mp hsplit
    intro i x hx
    rcases Nat.lt_or_ge i k with hlt | hge
    · have hmem : x ∈ xs.take k := List.mem_of_getElem? (by rw [List.getElem?_take_of_lt hlt, hx])
      exact ⟨fun _ => hlt, fun _ => hall x hmem⟩
    · have hmem : x ∈ xs.drop k := by
        have hidx : k + (i - k) = i := by omega
        exact List.mem_of_getElem? (i := i - k) (by rw [List.getElem?_drop, hidx, hx])
      exact ⟨fun hp => absurd hp (List.filter_eq_nil_iff.mp hnone x hmem), fun hlt => by omega⟩
  · intro h
    have hall : ∀ x ∈ xs.take k, p x = true := by
      intro x hx
      obtain ⟨i, hi⟩ := List.mem_iff_getElem?.mp hx
      have hlt : i < k := by
        have := (List.getElem?_eq_some_iff.mp hi).1
        rw [List.length_take] at this
        omega
      rw [List.getElem?_take_of_lt hlt] at hi
      exact (h i x hi).mpr hlt
    have hnone : ∀ x ∈ xs.drop k, ¬ p x = true := by
      intro x hx
      obtain ⟨i, hi⟩ := List.mem_iff_getElem?.mp hx
      rw [List.getElem?_drop] at hi
      exact fun hp => absurd ((h _ x hi).mp hp) (by omega)
    rw [hsplit, List.filter_eq_self.mpr hall, List.filter_eq_nil_iff.mpr hnone, List.append_nil]

/-- An entry of a table by its index: fresh or stale. -/
theorem fresh_joins_iff {e : Name × ℤ} (he : srvr.joins[i]? = some e) :
    decide (now - e.2 ≤ MIN_2) = true ↔ ¬ isStale srvr now i = true := by
  obtain ⟨c, tm⟩ := e
  obtain ⟨-, htm⟩ := List.getElem?_zip_eq_some.mp he
  have hget : srvr.timers.live.getD i 0 = tm := by
    rw [List.getD_eq_getElem?_getD, htm]
    rfl
  rw [isStale, hget, decide_eq_true_iff, decide_eq_true_iff]
  exact Int.not_lt.symm

/-- The scan of a whole table ends where the loop can end. -/
theorem exists_timeoutLoop (h1 : 1 ≤ srvr.numChnnls) (hnd : srvr.subs.Nodup) (now : ℤ) :
    ∃ x : ℕ, Ends (isLate srvr now) 1 srvr.subs.length x ∧
      timeoutLoop now srvr.numChnnls.toNat 1 srvr = .ok (srvr.setNumChnnls x) := by
  have hlen : srvr.numChnnls = srvr.subs.length := numChnnls_eq_length (by omega)
  have hself : srvr.setNumChnnls (srvr.subs.length : ℕ) = srvr := by
    rw [← hlen]
    exact setNumChnnls_self
  have hfuel : srvr.numChnnls.toNat = srvr.subs.length := by omega
  have heq := timeoutLoop_eq now srvr.subs.length 1 hnd (Int.le_of_eq hlen.symm)
  rw [hself] at heq
  rw [hfuel]
  exact ⟨_, ends_shrink (by omega) (Nat.le_add_left _ _), heq⟩

/-- A pass that leaves `x` entries is right if it leaves the fresh ones. -/
theorem scanExact_iff_take {x : ℕ}
    (hloop : timeoutLoop now srvr.numChnnls.toNat 1 srvr = .ok (srvr.setNumChnnls x))
    (h0 : 0 ≤ srvr.numChnnls) (hx : 1 ≤ x) (hle : x ≤ srvr.subs.length) :
    ScanExact srvr now ↔ (srvr.joins.drop 1).take (x - 1) =
      (srvr.joins.drop 1).filter fun e => decide (now - e.2 ≤ MIN_2) := by
  have hlen : srvr.numChnnls = srvr.subs.length := numChnnls_eq_length h0
  have hsplit : srvr.joins.take x = srvr.joins.take 1 ++ (srvr.joins.drop 1).take (x - 1) := by
    have hsum : x = 1 + (x - 1) := by omega
    rw [← List.take_add, ← hsum]
  constructor
  · rintro ⟨srvr', hr, -, -, hj⟩
    rw [hloop] at hr
    cases hr
    rw [joins_setNumChnnls, hsplit] at hj
    exact List.append_cancel_left hj
  · intro hj
    refine ⟨_, hloop, rfl, ?_, by rw [joins_setNumChnnls, hsplit, hj]⟩
    rw [numChnnls_setNumChnnls (by omega), joins_setNumChnnls, List.length_take, length_joins]
    omega

/-- **When a pass over a table is right.** -/
theorem scanExact_iff (h1 : 1 ≤ srvr.numChnnls) (hnd : srvr.subs.Nodup) (now : ℤ) :
    ScanExact srvr now ↔ StaleLast srvr now := by
  obtain ⟨x, hends, hloop⟩ := exists_timeoutLoop h1 hnd now
  have hle := hends.le_bound
  rw [scanExact_iff_take hloop (by omega) hends.1 hle,
    take_eq_filter_iff (by rw [List.length_drop, length_joins]; omega)]
  constructor
  · intro h
    refine ⟨x, hends, fun i hi hlt => ?_⟩
    have hidx : 1 + (i - 1) = i := by omega
    obtain ⟨e, hget⟩ : ∃ e, srvr.joins[i]? = some e :=
      ⟨_, List.getElem?_eq_getElem (by rw [length_joins]; exact hlt)⟩
    have hk := h (i - 1) _ (by rw [List.getElem?_drop, hidx, hget])
    rw [fresh_joins_iff hget] at hk
    rw [← not_iff_not, hk]
    omega
  · rintro ⟨k, hk, hstale⟩ i e he
    have hkx : k = x := hk.unique hends
    rw [List.getElem?_drop] at he
    have hlt : 1 + i < srvr.subs.length := by
      rw [← length_joins]
      exact (List.getElem?_eq_some_iff.mp he).1
    rw [fresh_joins_iff he, hstale (1 + i) (by omega) hlt, hkx]
    omega

/-- **Where the differences fit an `int`**, a pass is right exactly when nothing but the last entry
is stale. -/
theorem staleLast_iff_of_fits (h1 : 1 ≤ srvr.numChnnls) (hnd : srvr.subs.Nodup)
    (hfits : ∀ i, 1 ≤ i → i < srvr.subs.length →
      toInt (now - srvr.timers.live.getD i 0) = now - srvr.timers.live.getD i 0) :
    StaleLast srvr now ↔ ∀ i, 1 ≤ i → i + 1 < srvr.subs.length → isStale srvr now i = false := by
  have hlen : srvr.numChnnls = srvr.subs.length := numChnnls_eq_length (by omega)
  have hlate : ∀ i, 1 ≤ i → i < srvr.subs.length → isLate srvr now i = isStale srvr now i := by
    intro i hi hlt
    have hname := List.getElem?_eq_getElem hlt
    rw [isLate, hname, Option.any_some, channelElapse_eq hnd hname, hfits i hi hlt, isStale]
  constructor
  · rintro ⟨k, hk, hstale⟩ i hi hlt
    have hle := hk.le_bound
    have hfresh : ∀ i, 1 ≤ i → i < k → isStale srvr now i = false := fun i hi hik => by
      rw [← Bool.not_eq_true, hstale i hi (by omega)]
      omega
    have hzero : hits (isLate srvr now) 1 k = 0 :=
      hits_eq_zero fun i hi hik => (hlate i hi (by omega)).trans (hfresh i hi hik)
    have hend : srvr.subs.length ≤ k + 1 := by
      rw [Ends, hzero] at hk
      rcases hk.2 with h | ⟨h, -⟩ <;> omega
    exact hfresh i hi (by omega)
  · intro hfresh
    have hzero : ∀ k, k + 1 ≤ srvr.subs.length → hits (isLate srvr now) 1 k = 0 := fun k hk =>
      hits_eq_zero fun i hi hik => (hlate i hi (by omega)).trans (hfresh i hi (by omega))
    by_cases hlast : 1 < srvr.subs.length ∧ isStale srvr now (srvr.subs.length - 1) = true
    · obtain ⟨hgt, hst⟩ := hlast
      refine ⟨srvr.subs.length - 1, ⟨by omega, Or.inr ⟨?_, ?_⟩⟩, fun i hi hlt => ?_⟩
      · rw [hzero _ (by omega)]
        omega
      · rw [hlate _ (by omega) (by omega), hst]
      · constructor
        · intro hs
          by_contra hlt'
          rw [hfresh i hi (by omega)] at hs
          cases hs
        · intro hge
          have hi' : i = srvr.subs.length - 1 := by omega
          rw [hi', hst]
    · have hnone : ∀ i, 1 ≤ i → i < srvr.subs.length → isStale srvr now i = false := by
        intro i hi hlt
        rcases Nat.lt_or_ge (i + 1) srvr.subs.length with hin | hge
        · exact hfresh i hi hin
        · have hi' : i = srvr.subs.length - 1 := by omega
          rw [← Bool.not_eq_true, hi']
          exact fun hst => hlast ⟨by omega, hst⟩
      refine ⟨srvr.subs.length, ⟨by omega, Or.inl ?_⟩, fun i hi hlt => ?_⟩
      · rw [hits_eq_zero fun i hi hlt => (hlate i hi hlt).trans (hnone i hi hlt), Nat.add_zero]
      · rw [hnone i hi hlt]
        constructor
        · intro hs
          cases hs
        · omega

end Scan

/-- A neighbour subscribed to Common, to x since time 100 and to y since time 0. -/
def Three.aging : Server where
  addr := addr 0
  subChannels := Table.ofList [common, chnlX, chnlY] (by decide)
  timers := Table.ofList [0, 100, 0] (show 3 ≤ MAX_CHANNELS by decide)
  inStep := rfl

open Three in
/-- At time 200 the subscription to y is stale, and it is the last. -/
theorem scanExact_aging :
    ScanExact aging 200 ∧ isStale aging 200 1 = false ∧ isStale aging 200 2 = true :=
  ⟨(scanExact_iff (by decide) (by decide) 200).mpr
    ⟨2, ⟨by decide, Or.inr ⟨by decide, by decide⟩⟩, by decide⟩, by decide, by decide⟩

/-- At time 200 the subscription to x is stale and the one to y is not; y is what goes. -/
theorem not_scanExact_listed : ¬ ScanExact Three.listed 200 := by
  rintro ⟨srvr', hr, -, -, hj⟩
  have heq : timeoutLoop 200 Three.listed.numChnnls.toNat 1 Three.listed =
      .ok (Three.listed.setNumChnnls 2) := rfl
  rw [heq] at hr
  cases hr
  exact absurd hj (by decide)

end DuckChat
