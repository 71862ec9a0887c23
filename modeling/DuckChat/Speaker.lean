import DuckChat.Layout
import DuckChat.Roster

/-!
# The speaker of a say

The server of the speaker takes the speaker's name from the channel, where it looks for the address
of the request among the entries; for the other servers it takes the name from the table of users,
where it looks for the same address. The two are one user as long as every login comes from an
address of its own, which is an invariant over the logins of a run. Behind that the say crosses any
number of servers as bytes, and each of them builds its text from the bytes it received.

## Main definitions

* `Input.loginAddr` — where a login comes from
* `Text.sayBytes`, `Text.servSayBytes` — a text as the two branches send it
* `Relayed` — the bytes of a say after some number of servers

## Main results

* `addresses_sublist` — the users of a server are at addresses of logins, each at its own
* `say_texts_agree` — local and remote listeners receive the same bytes
-/

set_option autoImplicit false

namespace DuckChat

/-! ### One login from each address -/

/-- Where a login comes from. -/
def Input.loginAddr : Input → Option Sockaddr
  | .datagram a (.client (.login _)) _ _ => some a
  | _ => none

section Logins

variable {addrs : List Sockaddr} {s : ServerState} {is : List Input} {unset now : ℤ}
  {a : Sockaddr} {v w : User}

/-- The step lemma: a login appends its address to the users' addresses, and only a login does. -/
theorem UsersStep.addresses_sublist {i : Input} {heap' : List User} {next' : ℕ}
    (h : UsersStep s i heap' next') {logins : List Sockaddr}
    (hs : (s.heap.map User.address).Sublist logins) :
    (heap'.map User.address).Sublist (logins ++ [i].filterMap Input.loginAddr) := by
  cases h with
  | kept hi => exact hs.trans (List.sublist_append_left _ _)
  | @loggedIn a u drawn now =>
    rw [List.map_append]
    exact hs.append (List.Sublist.refl [a])
  | loggedOut hu =>
    exact ((List.eraseP_sublist.map User.address).trans hs).trans (List.sublist_append_left _ _)

/-- **The addresses of the users are addresses of logins**, in the order of the logins. -/
theorem addresses_sublist
    (h : Run ServerState.next (fun _ _ => True) (ServerState.start addrs unset now) is s) :
    (s.heap.map User.address).Sublist (is.filterMap Input.loginAddr) := by
  refine h.history (P := fun bs t => (t.heap.map User.address).Sublist
    (bs.filterMap Input.loginAddr)) (fun bs t i t' ht _ hnext => ?_) (List.Sublist.refl [])
  rw [List.filterMap_append]
  exact (users_of_react (next_eq_some_iff.mp hnext)).addresses_sublist ht

/-- Where every login has an address of its own, so has every user. -/
theorem eq_of_address_eq
    (h : Run ServerState.next (fun _ _ => True) (ServerState.start addrs unset now) is s)
    (hl : (is.filterMap Input.loginAddr).Nodup) (hv : v ∈ s.heap) (hw : w ∈ s.heap)
    (ha : v.address = w.address) : v = w :=
  List.inj_on_of_nodup_map ((addresses_sublist h).nodup hl) hv hw ha

end Logins

/-! ### The bytes of a say -/

/-- A text as the loop of `case REQ_SAY` sends it. -/
def Text.sayBytes : Text → Option (List UInt8)
  | .say channel username text => some (saySend channel username text)
  | _ => none

/-- A text as `case REQ_SERV_SAY` sends it. -/
def Text.servSayBytes : Text → Option (List UInt8)
  | .say channel username text => some (fillTextSayBytes channel username text)
  | _ => none

/-- The bytes of a packet after some number of servers. Each received them at the start of its
buffer, in front of whatever was there, read a say, and passed on `sizeof(*sss)` bytes from where
it had read. -/
inductive Relayed (sent : List UInt8) : ℕ → List UInt8 → Prop where
  | sent : Relayed sent 0 sent
  | forwarded {n : ℕ} {packet rest : List UInt8} {s : ServerState} {src dest : Sockaddr}
      {sss : SayS2S} (h : Relayed sent n packet) (hr : S2S.read (packet ++ rest) = some (.say sss))
      (ho : (⟨dest, .s2s (.say sss)⟩ : Datagram) ∈ (reqServSay s src sss).out) :
      Relayed sent (n + 1) ((packet ++ rest).take sizeofRequestSayS2S)

section Says

variable {s s' : ServerState} {a : Sockaddr} {c : Name} {t : SayText} {drawn : Id}

/-- A say reaches every server as it was sent. -/
theorem Relayed.eq_sent {sent packet : List UInt8} {n : ℕ} (h : Relayed sent n packet)
    (hlen : sent.length = sizeofRequestSayS2S) : packet = sent := by
  induction h with
  | sent => rfl
  | forwarded _ _ _ ih => rw [ih, List.take_append_of_le_length (Nat.le_of_eq hlen.symm),
      List.take_of_length_le (Nat.le_of_eq hlen)]

/-- The texts of `REQ_SERV_SAY` are built from the packet. -/
theorem text_of_reqServSay {sss : SayS2S} {d : Datagram} {x : Text}
    (hd : d ∈ (reqServSay s a sss).out) (hx : d.payload = .text x) :
    x = fillTextSay sss.reqChannel sss.reqUsername sss.reqText := by
  have hcases := reqServSay_cases s a sss
  generalize reqServSay s a sss = r at hcases hd
  cases hcases with
  | fault f hf ho => exact Payload.text.inj (hx.symm.trans (ho d hd))
  | duplicate => rw [List.mem_singleton.mp hd] at hx; cases hx
  | prune => rw [List.mem_singleton.mp hd] at hx; cases hx
  | forward =>
    rcases List.mem_append.mp hd with hd | hd
    · exact Payload.text.inj (hx.symm.trans (deliverLoop_out_text hd))
    · obtain ⟨srvr, -, rfl⟩ := List.mem_map.mp hd
      cases hx

/-- **A say of a member**, when it ends well: one name goes into all texts, and into all packets
the name of the user whom the table lists at the speaker's address. -/
theorem reqSay_member (hok : (reqSay s a c t drawn).result = .ok s')
    (hmem : ∃ e ∈ s.usersOf c, isAt a e = true) :
    ∃ v ∈ s.heap, ∃ w ∈ s.heap, v.address = a ∧ w.address = a ∧
      (∃ b, ⟨b, .text (.say c v.username t)⟩ ∈ (reqSay s a c t drawn).out) ∧
      ∀ d ∈ (reqSay s a c t drawn).out, d.payload = .text (.say c v.username t) ∨
        d.payload = .s2s (.say (s2sFillSay c w.username t drawn)) := by
  obtain ⟨chnl, usr, hf, hu, hout, -⟩ := reqSay_ok hok
  have huse : s.usersOf c = chnl.entries := by rw [ServerState.usersOf, hf]
  obtain ⟨e, he, -⟩ := hmem
  rw [huse] at he
  obtain ⟨v, hfind, hv, ho⟩ := hout (List.ne_nil_of_mem he)
  obtain ⟨husr, haddr⟩ := mem_heap_of_findUser hu
  have hvm : some v ∈ chnl.entries := List.mem_of_find?_eq_some hfind
  refine ⟨v, hv, usr, husr, isAt_some.mp (List.find?_some hfind), haddr, ⟨v.address, ?_⟩, ?_⟩
  · rw [ho]
    exact List.mem_append_left _ (List.mem_filterMap.mpr ⟨some v, hvm, rfl⟩)
  · intro d hd
    rw [ho] at hd
    rcases List.mem_append.mp hd with hd | hd
    · obtain ⟨x, -, hx⟩ := List.mem_filterMap.mp hd
      obtain ⟨u, -, rfl⟩ := Option.map_eq_some_iff.mp hx
      exact Or.inl rfl
    · obtain ⟨srvr, -, rfl⟩ := List.mem_map.mp hd
      exact Or.inr rfl

end Says

/-- **Local and remote listeners receive the same bytes.** In every run in which no two logins come
from one address, a say that ends well for a member of the channel sends one structure to all local
members; and after any number of servers, any server that receives the packet reads a say from it,
and sends that structure to each listener of its own. -/
theorem say_texts_agree {addrs : List Sockaddr} {unset now : ℤ} {is : List Input}
    {s s' : ServerState} {a : Sockaddr} {c : Name} {t : SayText} {drawn : Id}
    (h : Run ServerState.next (fun _ _ => True) (ServerState.start addrs unset now) is s)
    (hl : (is.filterMap Input.loginAddr).Nodup) (hmem : ∃ e ∈ s.usersOf c, isAt a e = true)
    (hok : (reqSay s a c t drawn).result = .ok s') :
    ∃ ts : List UInt8,
      (∃ d ∈ (reqSay s a c t drawn).out, ∃ x, d.payload = .text x) ∧
      (∀ d ∈ (reqSay s a c t drawn).out, ∀ x, d.payload = .text x → x.sayBytes = some ts) ∧
      ∀ d ∈ (reqSay s a c t drawn).out, ∀ m, d.payload = .s2s m →
        ∀ n packet, Relayed m.bytes n packet → ∀ rest, ∃ sss,
          S2S.read (packet ++ rest) = some (.say sss) ∧
          ∀ (r : ServerState) (src : Sockaddr), ∀ e ∈ (reqServSay r src sss).out,
            ∀ x, e.payload = .text x → x.servSayBytes = some ts := by
  obtain ⟨v, hv, w, hw, hva, hwa, ⟨b, hb⟩, hout⟩ := reqSay_member hok hmem
  have hvw : v = w := eq_of_address_eq h hl hv hw (hva.trans hwa.symm)
  subst hvw
  refine ⟨saySend c v.username t, ⟨_, hb, _, rfl⟩, fun d hd x hx => ?_, ?_⟩
  · rcases hout d hd with hp | hp
    · cases hx.symm.trans hp
      rfl
    · cases hx.symm.trans hp
  · intro d hd m hm n packet hrel rest
    have hm' : m = .say (s2sFillSay c v.username t drawn) := by
      rcases hout d hd with hp | hp
      · cases hm.symm.trans hp
      · exact Payload.s2s.inj (hm.symm.trans hp)
    subst hm'
    have hsent := hrel.eq_sent (SayS2S.length_bytes _)
    refine ⟨s2sFillSay c v.username t drawn, by rw [hsent, S2S.read_bytes], ?_⟩
    intro r src e he x hx
    rw [text_of_reqServSay he hx, saySend_eq_fillTextSayBytes]
    rfl

open Three in
theorem say_texts_agree_on_visit :
    ∃ s, Run ServerState.next (fun _ _ => True) (ServerState.start [addr 1] 0 0)
        [enter 0, ask 0 (.join common)] s ∧
      ∃ ts, (∃ d ∈ (reqSay s (client 0) common hello 1).out, ∃ x, d.payload = .text x) ∧
        ∀ d ∈ (reqSay s (client 0) common hello 1).out, ∀ x, d.payload = .text x →
          x.sayBytes = some ts := by
  have hex : (execute ServerState.next (fun _ _ => True) (ServerState.start [addr 1] 0 0)
      [enter 0, ask 0 (.join common)]).any (fun s =>
        (∃ e ∈ s.usersOf common, isAt (client 0) e = true) ∧
          (reqSay s (client 0) common hello 1).result.isOk) = true := by
    decide
  obtain ⟨s, hr, hs⟩ := exists_run_of_execute hex
  obtain ⟨hmem, hok⟩ := of_decide_eq_true hs
  cases hsay : (reqSay s (client 0) common hello 1).result with
  | error f =>
    rw [hsay] at hok
    cases hok
  | ok s' =>
    obtain ⟨ts, hsent, hlocal, -⟩ := say_texts_agree hr (by decide) hmem hsay
    exact ⟨s, hr, ts, hsent, hlocal⟩

end DuckChat
