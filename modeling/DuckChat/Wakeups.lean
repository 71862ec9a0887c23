import DuckChat.Threads

/-!
# Waking up

`recv_thread` keeps a datagram back while a line is begun. What it keeps back has to be printed
after the line, and the thread has to end after an `/exit`. Both need a broadcast that comes after
the wait; where that has come, or no wait was needed, `recv_thread` needs nobody else.

## Main definitions

* `ClientProcess.arrived`, `arrivalsOf` — the datagrams of a state, and of a run
* `ClientProcess.Ready` — `recv_thread` does not depend on `send_thread`

## Main results

* `ClientProcess.Ready.step`, `ClientProcess.Ready.run` — `recv_thread` on its own
* `arrivals_shown_at_prompt` — nothing is kept back at a prompt, but after a rejected line
* `exit_ends` — when the client ends
-/

set_option autoImplicit false

namespace DuckChat

namespace ClientProcess

variable (p : ClientProcess)

/-- What has arrived so far: printed, in the buffer of `recv_thread`, or not received yet. -/
def arrived : List (List UInt8) := p.shown ++ p.recv.inHand ++ p.socket

/-- A bound on the steps `recv_thread` takes on its own. -/
def rank : ℕ :=
  12 * p.socket.length + match p.recv with
    | .waiting _ => 12
    | .lock _ | .awake _ => 11
    | .check _ | .wait _ => 10
    | .print _ => 9
    | .broadcast => 8
    | .unlock => 7
    | .poll => if p.client.logout then 2 else 4
    | .receive => 3
    | .ended => 0

end ClientProcess

namespace ThreadAction

def datagram : ThreadAction → Option (List UInt8)
  | arrive d => some d
  | _ => none

end ThreadAction

/-- The datagrams that arrive, in order. -/
def arrivalsOf (as : List ThreadAction) : List (List UInt8) := as.filterMap ThreadAction.datagram

/-- `recv_thread` does not depend on `send_thread`. -/
structure ClientProcess.Ready (p : ClientProcess) : Prop where
  writing : p.writing = false
  free : p.monitor.holder ≠ some .send
  awake : p.needsWaking = false

section Waking

variable {p q : ClientProcess}

/-! ### What arrives -/

/-- `recv_thread` moves a datagram on, and loses none. -/
theorem ClientProcess.arrived_recvStep (hst : p.recvStep = some q) : q.arrived = p.arrived := by
  rw [ClientProcess.recvStep] at hst
  cases hpc : p.recv with
  | poll =>
    rw [hpc] at hst
    cases hst
    rw [arrived, arrived, hpc]
    dsimp only
    split <;> rfl
  | receive =>
    rw [hpc] at hst
    cases hs : p.socket with
    | nil =>
      rw [hs] at hst
      cases hst
      simp [arrived, hpc, hs, RecvPc.inHand]
    | cons d socket =>
      rw [hs] at hst
      cases hst
      simp [arrived, hpc, hs, RecvPc.inHand]
  | lock d =>
    rw [hpc] at hst
    obtain ⟨m, -, rfl⟩ := Option.map_eq_some_iff.mp hst
    simp [arrived, hpc, RecvPc.inHand]
  | check d =>
    rw [hpc] at hst
    cases hst
    rw [arrived, arrived, hpc]
    dsimp only
    split <;> rfl
  | waiting d =>
    rw [hpc] at hst
    obtain ⟨m, -, rfl⟩ := Option.map_eq_some_iff.mp hst
    simp [arrived, hpc, RecvPc.inHand]
  | ended =>
    rw [hpc] at hst
    cases hst
  | _ =>
    rw [hpc] at hst
    cases hst
    simp [arrived, hpc, RecvPc.inHand]

/-- `send_thread` leaves the receiver's side alone. -/
theorem ClientProcess.recv_sendStep (hst : p.sendStep = some q) :
    q.recv = p.recv ∧ q.socket = p.socket ∧ q.shown = p.shown := by
  rw [ClientProcess.sendStep] at hst
  cases hpc : p.send with
  | read | ended =>
    rw [hpc] at hst
    cases hst
  | echo c | clearWriting =>
    rw [hpc] at hst
    obtain ⟨-, hst⟩ := Option.ite_none_right_eq_some.mp hst
    cases hst
    exact ⟨rfl, rfl, rfl⟩
  | dispatch =>
    rw [hpc] at hst
    have hst : p.dispatch = some q := hst
    rw [ClientProcess.dispatch] at hst
    split at hst
    · cases hst
      exact ⟨rfl, rfl, rfl⟩
    · obtain ⟨c, -, rfl⟩ := Option.map_eq_some_iff.mp hst
      exact ⟨rfl, rfl, rfl⟩
  | lock =>
    rw [hpc] at hst
    obtain ⟨m, -, rfl⟩ := Option.map_eq_some_iff.mp hst
    exact ⟨rfl, rfl, rfl⟩
  | _ =>
    rw [hpc] at hst
    cases hst
    exact ⟨rfl, rfl, rfl⟩

theorem ClientProcess.arrived_step {a : ThreadAction} (hst : p.step a = some q) :
    q.arrived = p.arrived ++ a.datagram.toList := by
  cases a with
  | next t =>
    have hnone : (ThreadAction.next t).datagram.toList = [] := rfl
    rw [hnone, List.append_nil]
    cases t with
    | recv => exact arrived_recvStep hst
    | send =>
      obtain ⟨hrecv, hsocket, hshown⟩ := recv_sendStep hst
      rw [arrived, hrecv, hsocket, hshown, arrived]
  | key c =>
    rw [ClientProcess.step] at hst
    obtain ⟨-, hst⟩ := Option.ite_none_right_eq_some.mp hst
    cases hst
    simp [arrived, ThreadAction.datagram]
  | eof =>
    rw [ClientProcess.step] at hst
    obtain ⟨-, hst⟩ := Option.ite_none_right_eq_some.mp hst
    cases hst
    simp [arrived, ThreadAction.datagram]
  | arrive d =>
    cases hst
    simp [arrived, ThreadAction.datagram]
  | wake t =>
    cases hst
    simp [arrived, ThreadAction.datagram]

/-- **What arrives is printed in order, once.** -/
theorem arrived_of_run {unset : List UInt8} {as : List ThreadAction}
    (h : Run ClientProcess.step (fun _ _ => True) (ClientProcess.start unset) as p) :
    p.arrived = arrivalsOf as := by
  refine h.history (P := fun as p => p.arrived = arrivalsOf as) ?_ rfl
  intro as p a q harrived _ hst
  rw [ClientProcess.arrived_step hst, harrived, arrivalsOf, arrivalsOf, List.filterMap_append]
  cases h : a.datagram <;> simp [h]

/-! ### The receiver on its own -/

theorem Synced.ready (h : Synced p) (hf : p.send.typing p.charInd = false)
    (hl : p.send.locked = false) (hw : p.needsWaking = false) : p.Ready where
  writing := h.flag.trans hf
  free hm := absurd (h.sendHolds.mp hm) (by simp [hl])
  awake := hw

theorem Synced.holder_eq_none (h : Synced p) (hr : p.Ready) (hlocked : p.recv.locked = false) :
    p.monitor.holder = none := by
  cases hm : p.monitor.holder with
  | none => rfl
  | some t =>
    cases t with
    | recv => exact absurd (h.recvHolds.mp hm) (by simp [hlocked])
    | send => exact absurd hm hr.free

/-- **`recv_thread` on its own gets on**, until it has ended or the socket is empty. -/
theorem ClientProcess.Ready.step (hr : p.Ready) (h : Synced p) :
    p.recv = .ended ∨ (p.recv = .receive ∧ p.socket = [] ∧ p.client.logout = false) ∨
      ∃ q, p.recvStep = some q ∧ q.Ready ∧ q.client = p.client ∧ q.rank < p.rank := by
  have hfree := h.holder_eq_none hr
  have hasleep := h.asleep_recv
  have hlocked := h.recvHolds
  obtain ⟨hwriting, hsend, hawake⟩ := hr
  obtain ⟨monitor, writing, socket, recv, send, client, buff, charInd, shown⟩ := p
  cases hwriting
  cases recv with
  | poll =>
    refine Or.inr (Or.inr ⟨_, rfl, ⟨rfl, hsend, ?_⟩, rfl, ?_⟩)
    · simp only [needsWaking]
      split <;> rfl
    · cases hl : client.logout <;> simp [rank, hl]
  | receive =>
    cases socket with
    | nil =>
      cases hl : client.logout with
      | true =>
        exact Or.inr (Or.inr ⟨_, rfl, ⟨rfl, hsend, rfl⟩, rfl, by simp [rank, hl]⟩)
      | false => exact Or.inr (Or.inl ⟨rfl, rfl, rfl⟩)
    | cons d socket =>
      refine Or.inr (Or.inr ⟨_, rfl, ⟨rfl, hsend, rfl⟩, rfl, ?_⟩)
      simp only [rank, List.length_cons]
      omega
  | lock d =>
    have hm := Monitor.lock_eq_some_iff.mpr ⟨hfree rfl, hasleep rfl, rfl⟩
    exact Or.inr (Or.inr ⟨_, Option.map_eq_some_iff.mpr ⟨_, hm, rfl⟩, ⟨rfl, by simp, rfl⟩, rfl,
      by simp [rank]⟩)
  | check d =>
    exact Or.inr (Or.inr ⟨_, rfl, ⟨rfl, hsend, rfl⟩, rfl, by simp [rank]⟩)
  | wait d => cases hawake
  | waiting d =>
    have hm := Monitor.lock_eq_some_iff.mpr ⟨hfree rfl, hawake, rfl⟩
    exact Or.inr (Or.inr ⟨_, Option.map_eq_some_iff.mpr ⟨_, hm, rfl⟩, ⟨rfl, by simp, rfl⟩, rfl,
      by simp [rank]⟩)
  | awake d => exact Or.inr (Or.inr ⟨_, rfl, ⟨rfl, hsend, rfl⟩, rfl, by simp [rank]⟩)
  | print d => exact Or.inr (Or.inr ⟨_, rfl, ⟨rfl, hsend, rfl⟩, rfl, by simp [rank]⟩)
  | broadcast => exact Or.inr (Or.inr ⟨_, rfl, ⟨rfl, hsend, rfl⟩, rfl, by simp [rank]⟩)
  | unlock =>
    refine Or.inr (Or.inr ⟨_, rfl, ⟨rfl, by simp, rfl⟩, rfl, ?_⟩)
    cases hl : client.logout <;> simp [rank, hl]
  | ended => exact Or.inl rfl

theorem ClientProcess.Ready.run (hr : p.Ready) (h : Synced p) :
    ∃ k q, Run ClientProcess.step (fun _ a => a = .next .recv) p
        (List.replicate k (.next .recv)) q ∧
      Synced q ∧ q.arrived = p.arrived ∧ q.client = p.client ∧
      (q.recv = .ended ∨ q.recv = .receive ∧ q.socket = [] ∧ q.client.logout = false) := by
  have hstep : ∀ s : ClientProcess,
      (s.Ready ∧ Synced s ∧ s.arrived = p.arrived ∧ s.client = p.client) →
      (s.recv = .ended ∨ s.recv = .receive ∧ s.socket = [] ∧ s.client.logout = false) ∨
        ∃ t, s.step (.next .recv) = some t ∧
          (t.Ready ∧ Synced t ∧ t.arrived = p.arrived ∧ t.client = p.client) ∧ t.rank < s.rank := by
    rintro s ⟨hs, hsync, harrived, hclient⟩
    rcases hs.step hsync with he | hidle | ⟨t, hst, ht, hct, hlt⟩
    · exact Or.inl (Or.inl he)
    · exact Or.inl (Or.inr hidle)
    · exact Or.inr ⟨t, hst, ⟨ht, hsync.recvStep hst, (arrived_recvStep hst).trans harrived,
        hct.trans hclient⟩, hlt⟩
  obtain ⟨k, q, hrun, ⟨-, hq, harrived, hclient⟩, hstop⟩ :=
    exists_run_replicate _ hstep ⟨hr, h, rfl, rfl⟩
  exact ⟨k, q, hrun, hq, harrived, hclient, hstop⟩

/-- Who waits for a broadcast goes to sleep at most, and keeps the datagram. -/
theorem ClientProcess.needsWaking_recvStep (hw : p.needsWaking = true)
    (hst : p.recvStep = some q) :
    q.needsWaking = true ∧ q.send = p.send ∧ q.shown = p.shown := by
  rw [needsWaking] at hw
  rw [recvStep] at hst
  cases hpc : p.recv with
  | wait d =>
    rw [hpc] at hst
    cases hst
    exact ⟨Monitor.asleep_wait_self _ _, rfl, rfl⟩
  | waiting d =>
    rw [hpc] at hst hw
    obtain ⟨m, hm, -⟩ := Option.map_eq_some_iff.mp hst
    obtain ⟨-, hasleep, -⟩ := Monitor.lock_eq_some_iff.mp hm
    exact absurd (hasleep.symm.trans hw) Bool.false_ne_true
  | _ =>
    rw [hpc] at hw
    cases hw

/-- On its own it waits for ever. -/
theorem ClientProcess.shown_of_needsWaking {bs : List ThreadAction} (hw : p.needsWaking = true)
    (h : Run ClientProcess.step (fun _ a => a = .next .recv) p bs q) : q.shown = p.shown := by
  have hkept : q.needsWaking = true ∧ q.shown = p.shown := by
    refine h.invariant (P := fun q => q.needsWaking = true ∧ q.shown = p.shown) ?_ ⟨hw, rfl⟩
    rintro s a t ⟨hsw, hss⟩ rfl hst
    obtain ⟨htw, -, hts⟩ := needsWaking_recvStep hsw hst
    exact ⟨htw, hts.trans hss⟩
  exact hkept.2

/-- After the end of `send_thread` only waking up for no reason helps. -/
theorem ClientProcess.needsWaking_of_ended {bs : List ThreadAction} (hw : p.needsWaking = true)
    (hend : p.send = .ended)
    (h : Run ClientProcess.step (fun _ a => ∀ t, a ≠ .wake t) p bs q) : q.needsWaking = true := by
  have hkept : q.needsWaking = true ∧ q.send = .ended := by
    refine h.invariant (P := fun q => q.needsWaking = true ∧ q.send = .ended) ?_ ⟨hw, hend⟩
    rintro s a t ⟨hsw, hse⟩ hok hst
    cases a with
    | next u =>
      cases u with
      | recv =>
        obtain ⟨htw, hts, -⟩ := needsWaking_recvStep hsw hst
        exact ⟨htw, hts.trans hse⟩
      | send =>
        have hst : s.sendStep = some t := hst
        rw [sendStep, hse] at hst
        cases hst
    | key c | eof =>
      rw [ClientProcess.step, hse] at hst
      cases hst
    | arrive d =>
      cases hst
      exact ⟨hsw, hse⟩
    | wake u => exact absurd rfl (hok u)
  exact hkept.1

theorem ClientProcess.inHand_of_needsWaking (hw : p.needsWaking = true) :
    p.recv.inHand ≠ [] := by
  rw [needsWaking] at hw
  cases hpc : p.recv with
  | wait d | waiting d => simp [RecvPc.inHand]
  | _ =>
    rw [hpc] at hw
    cases hw

end Waking

/-- **What arrives is shown.** In every run the datagrams are printed in the order in which they
arrive, each once. At a prompt `recv_thread` needs a broadcast only if the last line was rejected by
`continue`. Where it needs none it prints on its own whatever has arrived, and where it does it
never will. -/
theorem arrivals_shown_at_prompt (unset : List UInt8) (as : List ThreadAction) (p : ClientProcess)
    (h : Run ClientProcess.step (fun _ _ => True) (ClientProcess.start unset) as p) :
    p.shown ++ p.recv.inHand ++ p.socket = arrivalsOf as ∧
      (p.send = .read → p.charInd = 0 →
        (p.needsWaking = true → skipsClear (cstring p.buff) = true) ∧
        ((∃ k q, Run ClientProcess.step (fun _ a => a = .next .recv) p
            (List.replicate k (.next .recv)) q ∧ q.shown = arrivalsOf as) ↔
          p.needsWaking = false)) := by
  have hs := synced_of_run h
  have harrived := arrived_of_run h
  refine ⟨harrived, fun hread hind => ?_⟩
  have htyping : p.send.typing p.charInd = false := by
    rw [hread, hind]
    rfl
  have hlogout := hs.logout_eq (by rw [hread]; rfl)
  refine ⟨fun hw => ?_, ?_, fun hw => ?_⟩
  · have hexcused := hs.excused ⟨hs.flag.trans htyping, hw⟩
    rw [ClientProcess.Excused, hread] at hexcused
    rcases hexcused with hskip | hexit
    · exact hskip
    · rw [hlogout] at hexit
      cases hexit
  · rintro ⟨k, q, hrun, hshown⟩
    by_contra hw
    have hw := Bool.eq_true_of_not_eq_false hw
    rw [ClientProcess.arrived, ← hshown, ClientProcess.shown_of_needsWaking hw hrun,
      List.append_assoc, List.append_right_eq_self] at harrived
    exact ClientProcess.inHand_of_needsWaking hw (List.append_eq_nil_iff.mp harrived).1
  · have hready := hs.ready htyping (by rw [hread]; rfl) hw
    obtain ⟨k, q, hrun, hq, hqa, hclient, hstop⟩ := hready.run hs
    refine ⟨k, q, hrun, ?_⟩
    rcases hstop with he | ⟨hr, hsocket, -⟩
    · have hexit := hq.recvEnded he
      rw [hclient, hlogout] at hexit
      cases hexit
    · rw [← harrived, ← hqa, ClientProcess.arrived, hr, hsocket]
      simp [RecvPc.inHand]

namespace Race

/-- A byte is typed and printed. -/
def types (c : UInt8) : List ThreadAction := [.key c, .next .send, .next .send, .next .send]

def text : List UInt8 := ascii "news"

/-- `recv_thread` receives a datagram while a line is begun. -/
def interrupted : List ThreadAction :=
  .arrive text :: List.replicate 4 (.next .recv)

/-- The broadcast at the end of the line comes before the wait. -/
def tooEarly : List ThreadAction := [.key newline, .next .send, .next .send, .next .recv]

/-- The broadcast at the end of the turn comes after it. -/
def greeting : List ThreadAction :=
  .next .send :: types 104 ++ interrupted ++ tooEarly ++ List.replicate 7 (.next .send)

/-- There is none after an `/exit`. -/
def parting : List ThreadAction :=
  .next .send :: (ascii "/exit").flatMap types ++ interrupted ++
    [.key newline, .next .send, .next .send, .next .send, .next .send, .next .recv,
      .next .send, .next .send]

end Race

open Race in
theorem arrivals_shown_at_prompt_on_greeting :
    ∃ p, Run ClientProcess.step (fun _ _ => True) (ClientProcess.start (zeroed BUFSIZ)) greeting p ∧
      ∃ k q, Run ClientProcess.step (fun _ a => a = .next .recv) p
        (List.replicate k (.next .recv)) q ∧ q.shown = [text] := by
  have h : (execute ClientProcess.step (fun _ _ => True) (ClientProcess.start (zeroed BUFSIZ))
      greeting).any
        (fun p => p.send = .read ∧ p.charInd = 0 ∧ p.needsWaking = false) = true := by decide
  obtain ⟨p, hrun, hp⟩ := exists_run_of_execute h
  obtain ⟨hread, hind, hw⟩ := of_decide_eq_true hp
  exact ⟨p, hrun, ((arrivals_shown_at_prompt _ _ p hrun).2 hread hind).2.mpr hw⟩

/-- **How the client ends.** When `send_thread` has ended, `recv_thread` ends on its own, with
everything printed that it received, unless it needs a broadcast. Then nothing but waking up for no
reason can end it, since both broadcasts of the last turn were too early. -/
theorem exit_ends (unset : List UInt8) (as : List ThreadAction) (p : ClientProcess)
    (h : Run ClientProcess.step (fun _ _ => True) (ClientProcess.start unset) as p)
    (hend : p.send = .ended) :
    (p.needsWaking = false → ∃ k q, Run ClientProcess.step (fun _ a => a = .next .recv) p
        (List.replicate k (.next .recv)) q ∧
        q.recv = .ended ∧ q.shown ++ q.socket = arrivalsOf as) ∧
      (p.needsWaking = true → ∀ bs q,
        Run ClientProcess.step (fun _ a => ∀ t, a ≠ .wake t) p bs q → q.recv ≠ .ended) := by
  have hs := synced_of_run h
  refine ⟨fun hw => ?_, fun hw bs q hrun he => ?_⟩
  · have hready := hs.ready (by rw [hend]; rfl) (by rw [hend]; rfl) hw
    obtain ⟨k, q, hrun, -, harrived, hclient, hstop⟩ := hready.run hs
    refine ⟨k, q, hrun, ?_⟩
    rcases hstop with he | ⟨-, -, hl⟩
    · rw [arrived_of_run h, ClientProcess.arrived, he, RecvPc.inHand, List.append_nil] at harrived
      exact ⟨he, harrived⟩
    · rw [hclient, hs.ended hend] at hl
      cases hl
  · have hkept := ClientProcess.needsWaking_of_ended hw hend hrun
    rw [ClientProcess.needsWaking, he] at hkept
    cases hkept

open Race in
/-- The client that is left hanging. -/
theorem exit_ends_on_parting :
    ∃ p, Run ClientProcess.step (fun _ _ => True) (ClientProcess.start (zeroed BUFSIZ)) parting p ∧
      p.send = .ended ∧ ∀ bs q,
        Run ClientProcess.step (fun _ a => ∀ t, a ≠ .wake t) p bs q → q.recv ≠ .ended := by
  have h : (execute ClientProcess.step (fun _ _ => True) (ClientProcess.start (zeroed BUFSIZ))
      parting).any (fun p => p.send = .ended ∧ p.needsWaking = true) = true := by decide
  obtain ⟨p, hrun, hp⟩ := exists_run_of_execute h
  obtain ⟨hend, hw⟩ := of_decide_eq_true hp
  exact ⟨p, hrun, hend, (exit_ends _ _ p hrun hend).2 hw⟩

end DuckChat
