import DuckChat.Lib.Monitor
import DuckChat.Lib.Run
import DuckChat.Reader

/-!
# The two threads of the client

`recv_thread` receives datagrams and prints them; `send_thread` reads what is typed and prints a
prompt after each line. They share a mutex, a condition variable and two flags. `writing` says that
a line has been begun. While it is set, `recv_thread` keeps a datagram back and waits.

`send_thread` sets and clears `writing` without the mutex, and broadcasts. Such a broadcast may come
between the look at the flag and the wait, and then it wakes nobody. What saves the datagram is the
broadcast under the mutex at the end of each turn, which has to come after the wait. Two kinds of
turn leave it out: those that end with `continue`, on a `/leave` or a `/switch` without an argument,
and the last one.

A step is one access to the mutex, the condition or a flag, or the work between two of them: the
writes that print a datagram are one step, and so are a command with what it sends and writes, and
the prompt with the `memset` of the buffer. An echo that comes between the writes of one datagram is
therefore not modelled. The flags are `volatile int`, and are taken to be read and written as a
whole.

## Main definitions

* `ClientProcess`, `ClientProcess.step` — the two threads, the terminal and the socket
* `ClientProcess.Blocked`, `ClientProcess.Excused` — waiting for nothing, and when that may be
* `Synced` — the invariant

## Main results

* `Synced.recvStep`, `Synced.sendStep`, `Synced.step` — the step lemmas
* `synced_of_run`
-/

set_option autoImplicit false

namespace DuckChat

inductive Thread where
  | recv
  | send
deriving DecidableEq

/-- Where `recv_thread` is, with the datagram in its buffer. -/
inductive RecvPc where
  /-- `while (!logout)` -/
  | poll
  | receive
  | lock (d : List UInt8)
  /-- `while (writing == 1)` -/
  | check (d : List UInt8)
  /-- About to wait, with the mutex. -/
  | wait (d : List UInt8)
  | waiting (d : List UInt8)
  /-- `if (logout) continue;` -/
  | awake (d : List UInt8)
  | print (d : List UInt8)
  | broadcast
  | unlock
  | ended
deriving DecidableEq

/-- Where `send_thread` is. -/
inductive SendPc where
  /-- `while (!logout)` -/
  | head
  | read
  | setWriting (c : UInt8)
  | wakeTyping (c : UInt8)
  | echo (c : UInt8)
  | clearWriting
  | wakeRead
  /-- The `switch` on `decode_input`. -/
  | dispatch
  | wakeExit
  /-- `if (!logout)` -/
  | test
  | lock
  | prompt
  | broadcast
  | unlock
  | ended
deriving DecidableEq

namespace RecvPc

/-- It holds the mutex. -/
def locked : RecvPc → Bool
  | check _ | wait _ | awake _ | print _ | broadcast | unlock => true
  | poll | receive | lock _ | waiting _ | ended => false

def isWaiting : RecvPc → Bool
  | waiting _ => true
  | _ => false

/-- It needs a broadcast that comes later. -/
def blocks (asleep : Bool) : RecvPc → Bool
  | wait _ => true
  | waiting _ => asleep
  | _ => false

/-- Who is about to wait holds the mutex. -/
theorem locked_of_blocks {r : RecvPc} (h : r.blocks false = true) : r.locked = true := by
  cases r with
  | wait d => rfl
  | _ => cases h

theorem blocks_of_false {r : RecvPc} {asleep : Bool} (h : r.blocks false = true) :
    r.blocks asleep = true := by
  cases r with
  | wait d => rfl
  | _ => cases h

/-- The datagram that was received and is not printed yet. -/
def inHand : RecvPc → List (List UInt8)
  | lock d | check d | wait d | waiting d | awake d | print d => [d]
  | poll | receive | broadcast | unlock | ended => []

end RecvPc

namespace SendPc

/-- It holds the mutex. -/
def locked : SendPc → Bool
  | prompt | broadcast | unlock => true
  | _ => false

/-- A line has been begun. -/
def typing (charInd : ℕ) : SendPc → Bool
  | read | setWriting _ | clearWriting => 0 < charInd
  | wakeTyping _ | echo _ => true
  | _ => false

/-- Where it may be after `/exit`. -/
def exiting : SendPc → Bool
  | wakeExit | test | head | ended => true
  | _ => false

end SendPc

/-- A running client: what the threads share, where they are, and the locals of `send_thread`.
`socket` holds the datagrams that have arrived, and `shown` those that were printed. -/
structure ClientProcess where
  monitor : Monitor Thread
  writing : Bool
  socket : List (List UInt8)
  recv : RecvPc
  send : SendPc
  client : Client
  buff : List UInt8
  charInd : ℕ
  shown : List (List UInt8)

/-- What can happen. -/
inductive ThreadAction where
  /-- The next access of a thread. -/
  | next (t : Thread)
  /-- A byte is typed. -/
  | key (c : UInt8)
  /-- The input ends. -/
  | eof
  | arrive (d : List UInt8)
  /-- A thread wakes up for no reason. -/
  | wake (t : Thread)
deriving DecidableEq

namespace ClientProcess

/-- The threads at start. The buffer comes out of `malloc`. -/
def start (unset : List UInt8) : ClientProcess where
  monitor := Monitor.free
  writing := false
  socket := []
  recv := .poll
  send := .head
  client := Client.start
  buff := unset
  charInd := 0
  shown := []

variable (p : ClientProcess)

/-- One access of `recv_thread`. -/
def recvStep : Option ClientProcess :=
  match p.recv with
  | .poll => some { p with recv := if p.client.logout then .ended else .receive }
  | .receive =>
      match p.socket with
      | [] => some { p with recv := .poll }
      | d :: socket => some { p with socket := socket, recv := .lock d }
  | .lock d => (p.monitor.lock .recv).map fun m => { p with monitor := m, recv := .check d }
  | .check d => some { p with recv := if p.writing then .wait d else .print d }
  | .wait d => some { p with monitor := p.monitor.wait .recv, recv := .waiting d }
  | .waiting d => (p.monitor.lock .recv).map fun m => { p with monitor := m, recv := .awake d }
  -- either way the next thing is the condition of the inner loop
  | .awake d => some { p with recv := .check d }
  | .print d => some { p with shown := p.shown ++ [d], recv := .broadcast }
  | .broadcast => some { p with monitor := p.monitor.broadcast, recv := .unlock }
  | .unlock => some { p with monitor := p.monitor.unlock, recv := .poll }
  | .ended => none

/-- The `switch`. A turn that faults has no next state. -/
def dispatch : Option ClientProcess :=
  let str := cstring p.buff
  if decodeInput str = .logout then
    some { p with client := { p.client with logout := true }, send := .wakeExit }
  else (p.client.goesOn str).map fun c =>
    { p with client := c, send := if skipsClear str then .head else .test }

/-- One access of `send_thread`. A line that does not fit into the buffer has no next state. -/
def sendStep : Option ClientProcess :=
  match p.send with
  | .head => some { p with charInd := 0, send := if p.client.logout then .ended else .read }
  | .read => none
  | .setWriting c => some { p with writing := true, send := .wakeTyping c }
  | .wakeTyping c => some { p with monitor := p.monitor.broadcast, send := .echo c }
  | .echo c =>
      if p.charInd < BUFSIZ then
        some { p with buff := p.buff.set p.charInd c, charInd := p.charInd + 1, send := .read }
      else none
  | .clearWriting =>
      if p.charInd + 1 < BUFSIZ then
        some { p with buff := p.buff.set (p.charInd + 1) 0, writing := false, send := .wakeRead }
      else none
  | .wakeRead => some { p with monitor := p.monitor.broadcast, send := .dispatch }
  | .dispatch => p.dispatch
  | .wakeExit => some { p with monitor := p.monitor.broadcast, send := .test }
  | .test => some { p with send := if p.client.logout then .head else .lock }
  | .lock => (p.monitor.lock .send).map fun m => { p with monitor := m, send := .prompt }
  | .prompt => some { p with buff := zeroed BUFSIZ, send := .broadcast }
  | .broadcast => some { p with monitor := p.monitor.broadcast, send := .unlock }
  | .unlock => some { p with monitor := p.monitor.unlock, send := .head }
  | .ended => none

/-- One step. -/
def step : ThreadAction → Option ClientProcess
  | .next .recv => p.recvStep
  | .next .send => p.sendStep
  | .key c =>
      if p.send = .read then
        some { p with send := if c = newline then .clearWriting else .setWriting c }
      else none
  | .eof => if p.send = .read then some { p with send := .clearWriting } else none
  | .arrive d => some { p with socket := p.socket ++ [d] }
  | .wake t => some { p with monitor := p.monitor.wake t }

/-- `recv_thread` does not go on before a broadcast. -/
def needsWaking : Bool := p.recv.blocks (p.monitor.asleep .recv)

/-- No line is begun, and `recv_thread` waits all the same. -/
def Blocked : Prop := p.writing = false ∧ p.needsWaking = true

/-- The turn is not over, or it has left out the broadcast at its end: the command that made it do
so is still in the buffer, or it was the last. -/
def Excused : Prop :=
  match p.send with
  | .head | .read | .setWriting _ | .clearWriting =>
      skipsClear (cstring p.buff) = true ∨ p.client.logout = true
  | .wakeTyping _ | .echo _ | .unlock => False
  | .wakeRead | .dispatch | .wakeExit | .test | .lock | .prompt | .broadcast | .ended => True

end ClientProcess

/-- What holds of the two threads at all times. -/
structure Synced (p : ClientProcess) : Prop where
  recvHolds : p.monitor.holder = some .recv ↔ p.recv.locked = true
  sendHolds : p.monitor.holder = some .send ↔ p.send.locked = true
  recvSleeps : p.monitor.asleep .recv = true → p.recv.isWaiting = true
  sendAwake : p.monitor.asleep .send = false
  flag : p.writing = p.send.typing p.charInd
  exit : p.client.logout = true → p.send.exiting = true
  ended : p.send = .ended → p.client.logout = true
  recvEnded : p.recv = .ended → p.client.logout = true
  excused : p.Blocked → p.Excused

section Steps

variable {p q : ClientProcess}

theorem synced_start (unset : List UInt8) : Synced (ClientProcess.start unset) where
  recvHolds := by simp [ClientProcess.start, Monitor.free, RecvPc.locked]
  sendHolds := by simp [ClientProcess.start, Monitor.free, SendPc.locked]
  recvSleeps h := by cases h
  sendAwake := rfl
  flag := rfl
  exit h := by cases h
  ended h := by cases h
  recvEnded h := by cases h
  excused h := by cases h.2

/-! ### The receiver -/

section Receiver

variable {monitor : Monitor Thread} {socket shown : List (List UInt8)} {recv : RecvPc}

/-- The sender's side stays as it is, and `recv_thread` does not begin to wait for nothing. -/
theorem Synced.of_recv (h : Synced p) (hlocked : monitor.holder = some .recv ↔ recv.locked = true)
    (hsend : monitor.holder = some .send ↔ p.monitor.holder = some .send)
    (hsleeps : monitor.asleep .recv = true → recv.isWaiting = true)
    (hawake : monitor.asleep .send = p.monitor.asleep .send)
    (hended : recv = .ended → p.client.logout = true)
    (hblocks : p.writing = false → recv.blocks (monitor.asleep .recv) = true →
      p.recv.blocks (p.monitor.asleep .recv) = true) :
    Synced { p with monitor := monitor, socket := socket, recv := recv, shown := shown } where
  recvHolds := hlocked
  sendHolds := hsend.trans h.sendHolds
  recvSleeps := hsleeps
  sendAwake := hawake.trans h.sendAwake
  flag := h.flag
  exit := h.exit
  ended := h.ended
  recvEnded := hended
  excused hb := h.excused ⟨hb.1, hblocks hb.1 hb.2⟩

/-- A thread that does not wait does not sleep. -/
theorem Synced.asleep_recv (h : Synced p) (hw : p.recv.isWaiting = false) :
    p.monitor.asleep .recv = false := by
  by_contra ha
  exact absurd (h.recvSleeps (Bool.eq_true_of_not_eq_false ha)) (by simp [hw])

/-- The mutex stays where it is. -/
theorem Synced.keeps (h : Synced p) (hw : p.recv.isWaiting = false)
    (hlocked : recv.locked = p.recv.locked) (hended : recv = .ended → p.client.logout = true)
    (hblocks : p.writing = false → recv.blocks false = false) :
    Synced { p with socket := socket, recv := recv, shown := shown } := by
  have hasleep := h.asleep_recv hw
  refine h.of_recv ?_ Iff.rfl (fun ha => ?_) rfl hended fun hf hb => ?_
  · rw [hlocked]
    exact h.recvHolds
  · rw [hasleep] at ha
    cases ha
  · rw [hasleep, hblocks hf] at hb
    cases hb

/-- The mutex is taken. -/
theorem Synced.takes (h : Synced p) (hm : p.monitor.lock .recv = some monitor)
    (hlocked : recv.locked = true) (hblocks : recv.blocks false = false) :
    Synced { p with monitor := monitor, recv := recv } := by
  obtain ⟨hfree, hasleep, rfl⟩ := Monitor.lock_eq_some_iff.mp hm
  refine h.of_recv (by simp [hlocked]) (by simp [hfree]) (fun ha => ?_) rfl (fun he => ?_)
    fun _ hb => ?_
  · exact absurd (hasleep.symm.trans ha) Bool.false_ne_true
  · rw [he] at hlocked
    cases hlocked
  · have hb : recv.blocks (p.monitor.asleep .recv) = true := hb
    rw [hasleep, hblocks] at hb
    cases hb

/-- **`recv_thread` takes a step.** -/
theorem Synced.recvStep (h : Synced p) (hst : p.recvStep = some q) : Synced q := by
  have hlocked := h.recvHolds
  rw [ClientProcess.recvStep] at hst
  cases hpc : p.recv with
  | poll =>
    rw [hpc] at hst
    cases hst
    refine h.keeps (by rw [hpc]; rfl) ?_ (fun he => ?_) fun _ => ?_
    · rw [hpc]
      split <;> rfl
    · split at he
      · assumption
      · cases he
    · split <;> rfl
  | receive =>
    rw [hpc] at hst
    cases hs : p.socket with
    | nil =>
      rw [hs] at hst
      cases hst
      exact h.keeps (by rw [hpc]; rfl) (by rw [hpc]; rfl) (fun he => by cases he) fun _ => rfl
    | cons d socket =>
      rw [hs] at hst
      cases hst
      exact h.keeps (by rw [hpc]; rfl) (by rw [hpc]; rfl) (fun he => by cases he) fun _ => rfl
  | lock d =>
    rw [hpc] at hst
    obtain ⟨m, hm, rfl⟩ := Option.map_eq_some_iff.mp hst
    exact h.takes hm rfl rfl
  | check d =>
    rw [hpc] at hst
    cases hst
    refine h.keeps (by rw [hpc]; rfl) ?_ (fun he => ?_) fun hf => ?_
    · rw [hpc]
      split <;> rfl
    · split at he <;> cases he
    · rw [hf]
      rfl
  | wait d =>
    rw [hpc] at hst hlocked
    cases hst
    refine h.of_recv (by simp [RecvPc.locked]) ?_ (fun _ => rfl) ?_ (fun he => by cases he)
      fun _ _ => by rw [hpc]; rfl
    · rw [hlocked.mpr rfl]
      simp
    · exact Monitor.asleep_wait_of_ne _ (by decide)
  | waiting d =>
    rw [hpc] at hst
    obtain ⟨m, hm, rfl⟩ := Option.map_eq_some_iff.mp hst
    exact h.takes hm rfl rfl
  | awake d =>
    rw [hpc] at hst
    cases hst
    exact h.keeps (by rw [hpc]; rfl) (by rw [hpc]; rfl) (fun he => by cases he) fun _ => rfl
  | print d =>
    rw [hpc] at hst
    cases hst
    exact h.keeps (by rw [hpc]; rfl) (by rw [hpc]; rfl) (fun he => by cases he) fun _ => rfl
  | broadcast =>
    rw [hpc] at hst hlocked
    cases hst
    refine h.of_recv hlocked Iff.rfl (fun ha => ?_) h.sendAwake.symm (fun he => by cases he)
      fun _ hb => ?_
    · cases ha
    · cases hb
  | unlock =>
    rw [hpc] at hst hlocked
    cases hst
    refine h.of_recv (by simp [RecvPc.locked]) ?_ (fun ha => ?_) rfl (fun he => by cases he)
      fun _ hb => ?_
    · rw [hlocked.mpr rfl]
      simp
    · have hasleep := h.asleep_recv (by rw [hpc]; rfl)
      exact absurd (hasleep.symm.trans ha) Bool.false_ne_true
    · cases hb
  | ended =>
    rw [hpc] at hst
    cases hst

end Receiver

/-! ### The sender -/

section Sender

variable {monitor : Monitor Thread} {writing : Bool} {send : SendPc} {client : Client}
  {buff : List UInt8} {charInd : ℕ}

/-- Two threads cannot both hold the mutex. -/
theorem Synced.not_locked (h : Synced p) (hsend : p.send.locked = true) :
    p.recv.locked = false := by
  by_contra hr
  have hrecv := h.recvHolds.mpr (Bool.eq_true_of_not_eq_false hr)
  rw [h.sendHolds.mpr hsend] at hrecv
  cases hrecv

/-- The receiver's side stays as it is, and nobody falls asleep. -/
theorem Synced.of_send (h : Synced p) (hlocked : monitor.holder = some .send ↔ send.locked = true)
    (hrecv : monitor.holder = some .recv ↔ p.monitor.holder = some .recv)
    (hsleeps : monitor.asleep .recv = true → p.monitor.asleep .recv = true)
    (hawake : monitor.asleep .send = false) (hflag : writing = send.typing charInd)
    (hexit : client.logout = true → send.exiting = true)
    (hended : send = .ended → client.logout = true)
    (hlogout : p.client.logout = true → client.logout = true)
    (hexcused : writing = false → p.recv.blocks (monitor.asleep .recv) = true →
      ({ p with send := send, client := client, buff := buff } : ClientProcess).Excused) :
    Synced { p with
      monitor := monitor
      writing := writing
      send := send
      client := client
      buff := buff
      charInd := charInd } where
  recvHolds := hrecv.trans h.recvHolds
  sendHolds := hlocked
  recvSleeps ha := h.recvSleeps (hsleeps ha)
  sendAwake := hawake
  flag := hflag
  exit := hexit
  ended := hended
  recvEnded hr := hlogout (h.recvEnded hr)
  excused hb := hexcused hb.1 hb.2

/-- A step outside the mutex that leaves the monitor and the client alone, and is not the last. -/
theorem Synced.proceeds (h : Synced p) (hout : p.send.locked = send.locked)
    (hflag : writing = send.typing charInd) (hexit : p.client.logout = true → send.exiting = true)
    (hended : send = .ended → p.client.logout = true)
    (hexcused : writing = false → p.recv.blocks (p.monitor.asleep .recv) = true →
      ({ p with send := send, buff := buff } : ClientProcess).Excused) :
    Synced { p with writing := writing, send := send, buff := buff, charInd := charInd } :=
  h.of_send (hout ▸ h.sendHolds) Iff.rfl id h.sendAwake hflag hexit hended id hexcused

/-- A broadcast. -/
theorem Synced.wakes (h : Synced p) (hout : p.send.locked = send.locked)
    (hflag : p.writing = send.typing p.charInd)
    (hexit : p.client.logout = true → send.exiting = true) (hended : send ≠ .ended)
    (hexcused : p.writing = false → p.recv.blocks false = true →
      ({ p with send := send } : ClientProcess).Excused) :
    Synced { p with monitor := p.monitor.broadcast, send := send } :=
  h.of_send (hout ▸ h.sendHolds) Iff.rfl (fun ha => by cases ha) rfl hflag hexit
    (fun he => absurd he hended) id hexcused

/-- Outside the places after `/exit` the flag is not set. -/
theorem Synced.logout_eq (h : Synced p) (he : p.send.exiting = false) :
    p.client.logout = false := by
  by_contra hl
  exact absurd (h.exit (Bool.eq_true_of_not_eq_false hl)) (by simp [he])

/-- Who goes on to the next line has not logged out. -/
theorem logout_of_goesOn {c c' : Client} {str : List UInt8} (h : c.goesOn str = some c') :
    c'.logout = false := by
  rw [Client.goesOn] at h
  obtain ⟨line, -, h⟩ := Option.bind_eq_some_iff.mp h
  obtain ⟨d, -, h⟩ := Option.bind_eq_some_iff.mp h
  split at h
  · cases h
  · next hd =>
    cases h
    exact Bool.eq_false_of_not_eq_true hd

/-- **The `switch`.** -/
theorem Synced.dispatch (h : Synced p) (hpc : p.send = .dispatch) (hst : p.dispatch = some q) :
    Synced q := by
  have hlocked := h.sendHolds
  have hflag := h.flag
  have hl := h.logout_eq (by rw [hpc]; rfl)
  rw [hpc] at hlocked hflag
  rw [ClientProcess.dispatch] at hst
  split at hst
  · cases hst
    exact h.of_send hlocked Iff.rfl id h.sendAwake hflag (fun _ => rfl) (fun he => by cases he)
      (fun _ => rfl) fun _ _ => trivial
  · obtain ⟨c, hc, rfl⟩ := Option.map_eq_some_iff.mp hst
    have hcl := logout_of_goesOn hc
    refine h.of_send ?_ Iff.rfl id h.sendAwake ?_ (fun he => absurd (hcl.symm.trans he) (by simp))
      (fun he => ?_) (fun he => by rw [hl] at he; cases he) fun _ _ => ?_
    · rw [hlocked]
      split <;> rfl
    · rw [hflag]
      split <;> rfl
    · split at he <;> cases he
    · cases hskip : skipsClear (cstring p.buff) with
      | true => exact Or.inl hskip
      | false => exact trivial

/-- **`send_thread` takes a step.** -/
theorem Synced.sendStep (h : Synced p) (hst : p.sendStep = some q) : Synced q := by
  have hlocked := h.sendHolds
  have hflag := h.flag
  have hexcused := h.excused
  rw [ClientProcess.sendStep] at hst
  cases hpc : p.send with
  | head =>
    rw [hpc] at hst hlocked hflag
    rw [ClientProcess.Excused, hpc] at hexcused
    cases hst
    cases hl : p.client.logout with
    | true =>
      exact h.proceeds (by rw [hpc]; rfl) hflag (fun _ => rfl) (fun _ => hl) fun _ _ => trivial
    | false =>
      exact h.proceeds (by rw [hpc]; rfl) hflag (fun he => by rw [hl] at he; cases he)
        (fun he => by cases he) fun hf hb => hexcused ⟨hf, hb⟩
  | read =>
    rw [hpc] at hst
    cases hst
  | setWriting c =>
    have hl := h.logout_eq (by rw [hpc]; rfl)
    rw [hpc] at hst
    cases hst
    exact h.proceeds (by rw [hpc]; rfl) rfl (fun he => by rw [hl] at he; cases he)
      (fun he => by cases he) fun hf _ => by cases hf
  | wakeTyping c =>
    have hl := h.logout_eq (by rw [hpc]; rfl)
    rw [hpc] at hst hflag
    cases hst
    refine h.wakes (by rw [hpc]; rfl) hflag (fun he => by rw [hl] at he; cases he)
      (fun he => by cases he) fun hf _ => ?_
    rw [hflag] at hf
    cases hf
  | echo c =>
    have hl := h.logout_eq (by rw [hpc]; rfl)
    rw [hpc] at hst hflag
    obtain ⟨-, hst⟩ := Option.ite_none_right_eq_some.mp hst
    cases hst
    refine h.proceeds (by rw [hpc]; rfl) ?_ (fun he => by rw [hl] at he; cases he)
      (fun he => by cases he) fun hf _ => ?_
    · rw [hflag]
      exact (decide_eq_true (Nat.succ_pos p.charInd)).symm
    · rw [hflag] at hf
      cases hf
  | clearWriting =>
    have hl := h.logout_eq (by rw [hpc]; rfl)
    rw [hpc] at hst
    obtain ⟨-, hst⟩ := Option.ite_none_right_eq_some.mp hst
    cases hst
    exact h.proceeds (by rw [hpc]; rfl) rfl (fun he => by rw [hl] at he; cases he)
      (fun he => by cases he) fun _ _ => trivial
  | wakeRead =>
    have hl := h.logout_eq (by rw [hpc]; rfl)
    rw [hpc] at hst hflag
    cases hst
    exact h.wakes (by rw [hpc]; rfl) hflag (fun he => by rw [hl] at he; cases he)
      (fun he => by cases he) fun _ _ => trivial
  | dispatch =>
    rw [hpc] at hst
    exact h.dispatch hpc hst
  | wakeExit =>
    rw [hpc] at hst hflag
    cases hst
    exact h.wakes (by rw [hpc]; rfl) hflag (fun _ => rfl) (fun he => by cases he)
      fun _ _ => trivial
  | test =>
    rw [hpc] at hst hflag
    cases hst
    cases hl : p.client.logout with
    | true =>
      exact h.proceeds (by rw [hpc]; rfl) hflag (fun _ => rfl) (fun he => by cases he)
        fun _ _ => Or.inr hl
    | false =>
      exact h.proceeds (by rw [hpc]; rfl) hflag (fun he => by rw [hl] at he; cases he)
        (fun he => by cases he) fun _ _ => trivial
  | lock =>
    have hl := h.logout_eq (by rw [hpc]; rfl)
    rw [hpc] at hst hflag
    obtain ⟨m, hm, rfl⟩ := Option.map_eq_some_iff.mp hst
    obtain ⟨hfree, hawake, rfl⟩ := Monitor.lock_eq_some_iff.mp hm
    exact h.of_send (by simp [SendPc.locked]) (by simp [hfree]) id hawake hflag
      (fun he => by rw [hl] at he; cases he) (fun he => by cases he) id fun _ _ => trivial
  | prompt =>
    have hl := h.logout_eq (by rw [hpc]; rfl)
    rw [hpc] at hst hflag
    cases hst
    exact h.proceeds (by rw [hpc]; rfl) hflag (fun he => by rw [hl] at he; cases he)
      (fun he => by cases he) fun _ _ => trivial
  | broadcast =>
    have hl := h.logout_eq (by rw [hpc]; rfl)
    have hout := h.not_locked (by rw [hpc]; rfl)
    rw [hpc] at hst hflag
    cases hst
    refine h.wakes (by rw [hpc]; rfl) hflag (fun he => by rw [hl] at he; cases he)
      (fun he => by cases he) fun _ hb => ?_
    -- who is about to wait has the mutex, and this thread has it
    rw [RecvPc.locked_of_blocks hb] at hout
    cases hout
  | unlock =>
    have hl := h.logout_eq (by rw [hpc]; rfl)
    rw [hpc] at hst hflag hlocked
    rw [ClientProcess.Excused, hpc] at hexcused
    cases hst
    refine h.of_send (by simp [SendPc.locked]) ?_ id h.sendAwake hflag
      (fun he => by rw [hl] at he; cases he) (fun he => by cases he) id
      fun hf hb => (hexcused ⟨hf, hb⟩).elim
    rw [hlocked.mpr rfl]
    simp
  | ended =>
    rw [hpc] at hst
    cases hst

end Sender

/-- **The step lemma.** -/
theorem Synced.step {a : ThreadAction} (h : Synced p) (hst : p.step a = some q) : Synced q := by
  have hflag := h.flag
  have hexcused := h.excused
  -- what the next byte makes of the line that is being read
  have hread : ∀ send : SendPc, p.send = .read →
      (send = .clearWriting ∨ ∃ c, send = .setWriting c) → Synced { p with send := send } := by
    intro send hpc hsend
    have hl := h.logout_eq (by rw [hpc]; rfl)
    rw [hpc] at hflag
    rw [ClientProcess.Excused, hpc] at hexcused
    rcases hsend with rfl | ⟨c, rfl⟩
    · exact h.proceeds (by rw [hpc]; rfl) hflag (fun he => by rw [hl] at he; cases he)
        (fun he => by cases he) fun hf hb => hexcused ⟨hf, hb⟩
    · exact h.proceeds (by rw [hpc]; rfl) hflag (fun he => by rw [hl] at he; cases he)
        (fun he => by cases he) fun hf hb => hexcused ⟨hf, hb⟩
  cases a with
  | next t =>
    cases t with
    | recv => exact h.recvStep hst
    | send => exact h.sendStep hst
  | key c =>
    rw [ClientProcess.step] at hst
    split at hst
    · next hpc =>
      cases hst
      refine hread _ hpc ?_
      split
      · exact Or.inl rfl
      · exact Or.inr ⟨c, rfl⟩
    · cases hst
  | eof =>
    rw [ClientProcess.step] at hst
    split at hst
    · next hpc =>
      cases hst
      exact hread _ hpc (Or.inl rfl)
    · cases hst
  | arrive d =>
    cases hst
    exact ⟨h.recvHolds, h.sendHolds, h.recvSleeps, h.sendAwake, h.flag, h.exit, h.ended,
      h.recvEnded, h.excused⟩
  | wake t =>
    cases hst
    cases t with
    | recv =>
      refine h.of_recv h.recvHolds Iff.rfl (fun ha => ?_) ?_ h.recvEnded fun _ hb => ?_
      · simp at ha
      · exact Monitor.asleep_wake_of_ne _ (by decide)
      · rw [Monitor.asleep_wake_self] at hb
        exact RecvPc.blocks_of_false hb
    | send =>
      refine h.of_recv h.recvHolds Iff.rfl (fun ha => ?_) ?_ h.recvEnded fun _ hb => ?_
      · rw [Monitor.asleep_wake_of_ne _ (by decide)] at ha
        exact h.recvSleeps ha
      · rw [Monitor.asleep_wake_self, h.sendAwake]
      · rwa [Monitor.asleep_wake_of_ne _ (by decide)] at hb

theorem synced_of_run {unset : List UInt8} {as : List ThreadAction}
    (h : Run ClientProcess.step (fun _ _ => True) (ClientProcess.start unset) as p) : Synced p :=
  h.invariant (fun _ _ _ hs _ hst => hs.step hst) (synced_start unset)

end Steps

end DuckChat
