import DuckChat.Console

/-!
# The channel a client speaks in

A say is sent to the active channel, and the client keeps a list of the channels it has joined. The
two are kept apart: a leave takes its channel off the list, and makes Common the active channel when
the active name *begins* with the name that is left. Common need not be on the list by then.

Lines are typed, and the command is what stands in the buffer once a line has been read into it.

## Main definitions

* `Client.Speaks` — the active channel has been joined and not left
* `KeepsActive` — a command that leaves it so
* `leaveLine` — the line that leaves a channel
* `Client.MovesTo` — where a line takes the client

## Main results

* `speaks_iff_keepsActive` — one command
* `speaks_where_joined` — every sequence of lines that are typed
* `movesTo_leaveLine_iff` — whether a leave falls back for its own channel and for no other
-/

set_option autoImplicit false

namespace DuckChat

namespace Client

/-- The active channel is one of `joined_chnls[0..joined_len)`. -/
def Speaks (c : Client) : Prop := c.activeChannel ∈ c.joinedChnls.live

end Client

/-- If the command leaves a channel that has been joined and whose name begins the active one, then
Common is joined, and once more than that if it is Common that is left. -/
def KeepsActive (c : Client) (buff : Line) : Prop :=
  c.logout = false → decodeInput buff.bytes = .leave →
    ∀ d ∈ c.joinedChnls.live, getCommandArg buff.bytes = some d.bytes → d.bytes ≠ [] →
      d.bytes <+: c.activeChannel.bytes → common ∈ c.joinedChnls.live.erase d

instance decidableKeepsActive (c : Client) (buff : Line) : Decidable (KeepsActive c buff) :=
  inferInstanceAs (Decidable (c.logout = false → decodeInput buff.bytes = .leave →
    ∀ d ∈ c.joinedChnls.live, getCommandArg buff.bytes = some d.bytes → d.bytes ≠ [] →
      d.bytes <+: c.activeChannel.bytes → common ∈ c.joinedChnls.live.erase d))

namespace Client

section Rules

variable {c c' : Client} {buff : Line} {d : Name}

/-- A join that ends well has a name for its argument. -/
theorem exists_arg_caseJoin (h : (c.caseJoin buff.bytes).result = .ok c') :
    ∃ d : Name, getCommandArg buff.bytes = some d.bytes := by
  obtain ⟨_, -, h⟩ := Emit.bind_eq_ok_iff.mp h
  cases harg : getCommandArg buff.bytes with
  | none =>
    rw [harg] at h
    cases h
  | some chnl =>
    rw [harg] at h
    obtain ⟨d, hd, -⟩ := Emit.bind_eq_ok_iff.mp h
    exact ⟨d, congrArg some (copyTo_eq_ok_iff.mp hd)⟩

/-- And so has a leave. -/
theorem exists_arg_caseLeave (h : (c.caseLeave buff.bytes).result = .ok c') :
    ∃ d : Name, getCommandArg buff.bytes = some d.bytes := by
  rw [caseLeave] at h
  split at h
  · cases h
  · next chnl harg =>
    obtain ⟨d, hd, -⟩ := Emit.bind_eq_ok_iff.mp h
    exact ⟨d, by rw [harg, copyTo_eq_ok_iff.mp hd]⟩

/-- A join is spoken in at once. -/
theorem Speaks.caseJoin (hs : c.Speaks) (h : (c.caseJoin buff.bytes).result = .ok c') :
    c'.Speaks := by
  obtain ⟨d, harg⟩ := exists_arg_caseJoin h
  by_cases hd : d.bytes = []
  · rw [caseJoin_nil (hd ▸ harg)] at h
    cases h
    exact hs
  · rw [caseJoin_eq harg hd] at h
    cases hst : store c.joinedChnls d with
    | error f =>
      rw [hst] at h
      cases h
    | ok t =>
      rw [hst] at h
      cases h
      show d ∈ t.live
      rw [(store_eq_ok_iff.mp hst).2.2.1]
      exact List.mem_append_right _ (List.mem_singleton_self _)

/-- A switch finds its channel on the list. -/
theorem Speaks.caseSwitch (hs : c.Speaks) (buf : List UInt8) : (c.caseSwitch buf).Speaks := by
  rw [Client.caseSwitch]
  split
  · exact hs
  · split
    · exact hs
    · split
      · exact hs
      · next x hx => exact List.mem_of_find?_eq_some hx

/-- **A leave** falls back on Common where the name that is left begins the active one. -/
theorem speaks_caseLeave_iff (hs : c.Speaks) (hl : c.logout = false)
    (hk : decodeInput buff.bytes = .leave) (h : (c.caseLeave buff.bytes).result = .ok c') :
    c'.Speaks ↔ KeepsActive c buff := by
  obtain ⟨d, harg⟩ := exists_arg_caseLeave h
  have hname : ∀ e : Name, getCommandArg buff.bytes = some e.bytes → e = d := fun e he =>
    CStr.ext (Option.some.inj (he.symm.trans harg))
  by_cases hd : d.bytes = []
  · rw [caseLeave_nil (hd ▸ harg)] at h
    cases h
    exact iff_of_true hs fun _ _ e _ he hne => absurd (hname e he ▸ hd) hne
  rw [caseLeave_eq harg hd] at h
  by_cases hmem : d ∈ c.joinedChnls.live
  · rw [if_pos hmem] at h
    cases h
    have hlive : (c.joinedChnls.remove fun _ x => x == d).live = c.joinedChnls.live.erase d := by
      rw [List.erase_eq_eraseP']
      exact Table.live_remove_of_mem (p := (· == d)) hmem (beq_self_eq_true d)
    show (if d.bytes.isPrefixOf c.activeChannel.bytes then common else c.activeChannel) ∈
      (c.joinedChnls.remove fun _ x => x == d).live ↔ _
    rw [hlive]
    by_cases hp : d.bytes <+: c.activeChannel.bytes
    · rw [if_pos (List.isPrefixOf_iff_prefix.mpr hp)]
      constructor
      · intro hc _ _ e _ he _ _
        rwa [hname e he]
      · intro hkeep
        exact hkeep hl hk d hmem harg hd hp
    · rw [if_neg fun h => hp (List.isPrefixOf_iff_prefix.mp h)]
      have hne : c.activeChannel ≠ d := fun heq => hp (heq ▸ List.prefix_rfl)
      refine iff_of_true ((List.mem_erase_of_ne hne).mpr hs) fun _ _ e _ he _ hpe => ?_
      exact absurd (hname e he ▸ hpe) hp
  · rw [if_neg hmem] at h
    cases h
    exact iff_of_true hs fun _ _ e hm he => absurd (hname e he ▸ hm) hmem

/-- **The fallback is all that can go wrong**: in one line the client loses its active channel
exactly if it falls back on Common where Common is not joined. -/
theorem speaks_iff_keepsActive (hs : c.Speaks) (h : (c.turn buff).result = .ok c') :
    c'.Speaks ↔ KeepsActive c buff := by
  rw [turn] at h
  split at h
  · next hl =>
    cases h
    exact iff_of_true hs fun hf => absurd hl (ne_true_of_eq_false hf)
  · next hl =>
    have hl : c.logout = false := by simpa using hl
    have other : ∀ (t : Client) {k : InputKind}, t.Speaks → decodeInput buff.bytes = k →
        k ≠ .leave → (t.Speaks ↔ KeepsActive c buff) := fun t k ht hk hne =>
      iff_of_true ht fun _ hleave => absurd (hk.symm.trans hleave) hne
    cases hk : decodeInput buff.bytes with
    | join =>
      rw [hk] at h
      exact other c' (hs.caseJoin h) hk InputKind.noConfusion
    | leave =>
      rw [hk] at h
      exact speaks_caseLeave_iff hs hl hk h
    | switch =>
      rw [hk] at h
      cases h
      exact other _ (hs.caseSwitch _) hk InputKind.noConfusion
    | say =>
      rw [hk] at h
      obtain ⟨_, -, h⟩ := Emit.bind_eq_ok_iff.mp h
      cases h
      exact other c hs hk InputKind.noConfusion
    | who =>
      rw [hk] at h
      obtain ⟨_, -, h⟩ := Emit.bind_eq_ok_iff.mp h
      cases h
      exact other c hs hk InputKind.noConfusion
    | list =>
      rw [hk] at h
      cases h
      exact other c hs hk InputKind.noConfusion
    | logout =>
      rw [hk] at h
      cases h
      exact other _ hs hk InputKind.noConfusion
    | unknown =>
      rw [hk] at h
      cases h
      exact other c hs hk InputKind.noConfusion

/-- A say goes to the active channel. -/
theorem reqChannel_of_mem_turn_out {ch : Name} {t : SayText}
    (h : .request (.say ch t) ∈ (c.turn buff).out) : ch = c.activeChannel := by
  cases sends_turn c buff _ h
  rfl

end Rules

end Client

/-- The line, read over what stands in the buffer, is such a command. -/
def Console.KeepsActive (s : Console) (l : Typed) : Prop :=
  DuckChat.KeepsActive s.client (s.buff.line l)

instance Console.decidableKeepsActive (s : Console) (l : Typed) : Decidable (s.KeepsActive l) :=
  inferInstanceAs (Decidable (DuckChat.KeepsActive s.client (s.buff.line l)))

/-- **The client speaks only where it has joined.** After every sequence of typed lines that keep
the active channel, it is on the list, and so is the channel of any say that the next line sends.
The buffer may hold anything at the start. -/
theorem speaks_where_joined (unset : LineBuffer) (ls : List Typed) (s : Console)
    (h : Run Console.next Console.KeepsActive (Console.start unset) ls s) :
    s.client.Speaks ∧ ∀ l ch t, .request (.say ch t) ∈ (s.turn l).out →
      ch ∈ s.client.joinedChnls.live := by
  have hs : s.client.Speaks := h.invariant (P := fun s => s.client.Speaks)
    (fun _ _ _ hs hk hst => (Client.speaks_iff_keepsActive hs
      (Console.turn_client (Console.next_eq_some_iff.mp hst))).mpr hk)
    (List.mem_singleton_self _)
  refine ⟨hs, fun l ch t hmem => ?_⟩
  rw [Console.turn_out] at hmem
  rw [Client.reqChannel_of_mem_turn_out hmem]
  exact hs

namespace Three

/-- A user joins a channel, says something there, forgets a name, and leaves the channel for
Common. -/
def detour : List Typed :=
  [⟨ascii "/join y", by decide, by decide, by decide⟩,
    ⟨ascii "back soon", by decide, by decide, by decide⟩,
    ⟨ascii "/switch ", by decide, by decide, by decide⟩,
    ⟨ascii "/leave y", by decide, by decide, by decide⟩,
    ⟨ascii "I am back", by decide, by decide, by decide⟩]

def farewell : Typed := ⟨ascii "/leave " ++ common.bytes, by decide, by decide, by decide⟩

end Three

open Three in
theorem speaks_on_detour :
    ∃ s, Run Console.next Console.KeepsActive (Console.start .cleared) detour s ∧
      s.client.Speaks ∧ ∀ l ch t, .request (.say ch t) ∈ (s.turn l).out →
        ch ∈ s.client.joinedChnls.live := by
  have h : (execute Console.next Console.KeepsActive (Console.start .cleared) detour).any
      (fun _ => true) = true := by
    decide +kernel
  obtain ⟨s, hr, -⟩ := exists_run_of_execute h
  exact ⟨s, hr, speaks_where_joined .cleared detour s hr⟩

open Three in
/-- A user leaves Common and goes on speaking there. -/
theorem not_speaks_where_joined :
    ¬ ∀ (unset : LineBuffer) (ls : List Typed) (s : Console),
        Run Console.next (fun _ _ => True) (Console.start unset) ls s →
        s.client.Speaks ∧ ∀ l ch t, .request (.say ch t) ∈ (s.turn l).out →
          ch ∈ s.client.joinedChnls.live := by
  intro h
  have hex : (execute Console.next (fun _ _ => True) (Console.start .cleared)
      [farewell]).any (fun s => s.client.activeChannel ∉ s.client.joinedChnls.live) = true := by
    decide +kernel
  obtain ⟨s, hr, hs⟩ := exists_run_of_execute hex
  exact of_decide_eq_true hs (h _ _ s hr).1

/-! ### Whether the fallback is for the channel that is left -/

/-- `/leave`, and a name. -/
def leaveLine (d : Name) : Line where
  bytes := ascii "/leave " ++ d.bytes
  noNul h0 := (List.mem_append.mp h0).elim (by decide) d.noNul
  fits := by
    have hlen : d.bytes.length < CHANNEL_MAX := d.fits
    have hmax : CHANNEL_MAX + 7 < BUFSIZ := by decide
    have hcmd : (ascii "/leave ").length = 7 := rfl
    rw [List.length_append, hcmd]
    omega

/-- The line is handled, and afterwards the active channel is `e`. -/
def Client.MovesTo (c : Client) (buff : Line) (e : Name) : Prop :=
  ∃ c', (c.turn buff).result = .ok c' ∧ c'.activeChannel = e

section Leave

variable {c : Client} {d : Name}

/-- A leave of a joined channel. -/
theorem turn_leaveLine (hl : c.logout = false) (hmem : d ∈ c.joinedChnls.live)
    (hne : d.bytes ≠ []) :
    (c.turn (leaveLine d)).result = .ok { c with
      joinedChnls := c.joinedChnls.remove fun _ x => x == d
      activeChannel := if d.bytes.isPrefixOf c.activeChannel.bytes then common
        else c.activeChannel } := by
  have hk : decodeInput (leaveLine d).bytes = .leave := rfl
  have harg : getCommandArg (leaveLine d).bytes = some d.bytes := rfl
  rw [Client.turn, if_neg (ne_true_of_eq_false hl), hk]
  simp only
  rw [Client.caseLeave_eq harg hne, if_pos hmem]

/-- **Leaving one channel moves the speaker out of another** exactly if the name that is left is a
proper prefix of the active one, and the active one is not Common: the list is searched for the
whole name, and the active channel is compared with it on the length of the argument. -/
theorem movesTo_leaveLine_iff (hl : c.logout = false) (hmem : d ∈ c.joinedChnls.live)
    (hne : d.bytes ≠ []) :
    c.MovesTo (leaveLine d) (if c.activeChannel = d then common else c.activeChannel) ↔
      ¬ (d.bytes <+: c.activeChannel.bytes ∧ c.activeChannel ≠ d ∧ c.activeChannel ≠ common) := by
  have hmoves : ∀ e, c.MovesTo (leaveLine d) e ↔
      (if d.bytes.isPrefixOf c.activeChannel.bytes then common else c.activeChannel) = e := by
    intro e
    rw [Client.MovesTo, turn_leaveLine hl hmem hne]
    simp
  rw [hmoves]
  by_cases hp : d.bytes <+: c.activeChannel.bytes
  · rw [if_pos (List.isPrefixOf_iff_prefix.mpr hp)]
    by_cases hd : c.activeChannel = d
    · rw [if_pos hd]
      exact iff_of_true rfl fun h => h.2.1 hd
    · rw [if_neg hd]
      exact ⟨fun heq h => h.2.2 heq.symm,
        fun h => (not_not.mp fun hc => h ⟨hp, hd, hc⟩).symm⟩
  · rw [if_neg fun h => hp (List.isPrefixOf_iff_prefix.mp h)]
    have hd : c.activeChannel ≠ d := fun heq => hp (heq ▸ List.prefix_rfl)
    rw [if_neg hd]
    exact iff_of_true rfl fun h => hp h.1

end Leave

namespace Three

/-- One name begins the other. -/
def ab : Name := ⟨ascii "ab", by decide, by decide⟩
def abc : Name := ⟨ascii "abc", by decide, by decide⟩

/-- A user of both channels, who speaks in one of them. -/
def inBoth (activeChannel : Name) : Client where
  joinedChnls := Table.ofList [common, ab, abc] (by decide)
  activeChannel := activeChannel
  logout := false

end Three

open Three in
theorem movesTo_leaveLine_abc :
    (inBoth ab).MovesTo (leaveLine abc) (if ab = abc then common else ab) ↔
      ¬ (abc.bytes <+: ab.bytes ∧ ab ≠ abc ∧ ab ≠ common) :=
  movesTo_leaveLine_iff (c := inBoth ab) rfl (by decide) (by decide)

open Three in
/-- And the other way round the user is moved to Common. -/
theorem not_movesTo_leaveLine :
    ¬ ∀ (c : Client) (d : Name), c.logout = false → d ∈ c.joinedChnls.live → d.bytes ≠ [] →
        c.MovesTo (leaveLine d) (if c.activeChannel = d then common else c.activeChannel) := by
  intro h
  obtain ⟨c', hturn, hact⟩ := h (inBoth abc) ab rfl (by decide) (by decide)
  rw [turn_leaveLine rfl (by decide) (by decide)] at hturn
  cases hturn
  exact absurd hact (by decide)

end DuckChat
