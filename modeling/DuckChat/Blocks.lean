import DuckChat.ServerRules
import DuckChat.Wire

/-!
# What `malloc` left

Texts and packets are built in blocks that are cleared, or in structures that are; the reply to a
list is not. Each name is copied to its slot with its terminator, and what stands behind that is
what the block held.

## Main definitions

* `Cleared` — the bytes that a handler sends are the same for every heap

## Main results

* `serve_mem` — every request but a list is handled in the same way for every heap
* `textList_eq_iff` — the reply to a list is, if every name fills its slot
-/

set_option autoImplicit false

namespace DuckChat

/-! ### Cleared blocks -/

/-- The bytes of a datagram do not show what `malloc` left. -/
def Datagram.Clear (d : Datagram) : Prop := ∀ mem mem', d.encode mem = d.encode mem'

/-- Nor do those of any datagram that a handler sends. -/
def Cleared {α : Type} (x : Act α) : Prop := x.Sends Datagram.Clear

section Cleared

variable {α : Type} {s : ServerState} {a : Sockaddr} {c : Name} {drawn : Id} {now : ℤ}

theorem Cleared.encodeAct_eq {x : Act α} (h : Cleared x) (mem mem' : Heap) :
    encodeAct mem x = encodeAct mem' x := by
  rw [encodeAct, encodeAct, List.map_congr_left fun d hd => h d hd mem mem']

theorem clear_s2s (b : Sockaddr) (m : S2S) : Datagram.Clear ⟨b, .s2s m⟩ := fun _ _ => rfl

theorem cleared_sendText {t : Text} (h : ∀ names, t ≠ .list names) : Cleared (sendText a t) := by
  refine Emit.sends_emit fun mem mem' => ?_
  cases t with
  | list names => exact absurd rfl (h names)
  | _ => simp only [Datagram.encode, Text.encode]

theorem cleared_broadcast (m : S2S) : Cleared (broadcast s m) := by
  refine Emit.sends_emitAll fun d hd => ?_
  obtain ⟨b, -, rfl⟩ := List.mem_map.mp hd
  exact clear_s2s b m

theorem cleared_reqLogin (u : Username) : Cleared (reqLogin s a u) :=
  (Emit.sends_lift _).bind fun _ _ => (Emit.sends_lift _).bind fun _ _ => Emit.sends_pure _

theorem cleared_reqLogout : Cleared (reqLogout s a) :=
  (Emit.sends_lift _).bind fun _ _ => by
    split
    · exact Emit.sends_lift _
    · exact Emit.sends_pure _

theorem cleared_reqJoin : Cleared (reqJoin s a c now) :=
  (cleared_broadcast _).bind fun _ _ => (Emit.sends_lift _).bind fun _ _ =>
    (Emit.sends_lift _).bind fun _ _ => Emit.sends_pure _

theorem cleared_reqLeave : Cleared (reqLeave s a c) := by
  rw [reqLeave]
  split
  · exact (cleared_sendText fun _ => Text.noConfusion).bind fun _ _ => Emit.sends_pure _
  · refine (Emit.sends_lift _).bind fun x _ => ?_
    dsimp only
    split
    · exact (cleared_broadcast _).bind fun _ _ => Emit.sends_pure _
    · exact Emit.sends_pure _

theorem cleared_reqWho : Cleared (reqWho s a c) := by
  rw [reqWho]
  split
  · exact Emit.sends_lift _
  · split
    · exact (cleared_sendText fun _ => Text.noConfusion).bind fun _ _ => Emit.sends_pure _
    · exact (Emit.sends_lift _).bind fun _ _ =>
        (cleared_sendText fun _ => Text.noConfusion).bind fun _ _ => Emit.sends_pure _

theorem cleared_sayLoop {heap : List User} {chnl : Channel} {t : SayText}
    (es : List (Option User)) : Cleared (sayLoop heap chnl a c t es) := by
  induction es with
  | nil => exact Emit.sends_pure _
  | cons e es ih =>
    exact (Emit.sends_lift _).bind fun _ _ => (Emit.sends_lift _).bind fun _ _ =>
      (Emit.sends_lift _).bind fun _ _ =>
        (cleared_sendText fun _ => Text.noConfusion).bind fun _ _ => ih

theorem cleared_deliverLoop {heap : List User} {c : Name} {u : Username} {t : SayText}
    (es : List (Option User)) : Cleared (deliverLoop heap (fillTextSay c u t) es) := by
  induction es with
  | nil => exact Emit.sends_pure _
  | cons e es ih =>
    exact (Emit.sends_lift _).bind fun _ _ =>
      (cleared_sendText fun _ => Text.noConfusion).bind fun _ _ => ih

theorem cleared_reqSay (t : SayText) : Cleared (reqSay s a c t drawn) := by
  rw [reqSay]
  split
  · exact (cleared_sendText fun _ => Text.noConfusion).bind fun _ _ => Emit.sends_lift _
  · refine (cleared_sayLoop _).bind fun _ _ => (Emit.sends_lift _).bind fun _ _ =>
      (Emit.sends_lift _).bind fun _ _ => (Emit.sends_emitAll fun d hd => ?_).bind fun _ _ =>
        Emit.sends_pure _
    obtain ⟨srvr, -, rfl⟩ := List.mem_map.mp hd
    exact clear_s2s _ _

theorem cleared_reqServJoin : Cleared (reqServJoin s a c now) := by
  refine (Emit.sends_lift _).bind fun _ _ => (Emit.sends_lift _).bind fun _ _ => ?_
  dsimp only
  split
  · exact Emit.sends_pure _
  · exact (Emit.sends_lift _).bind fun _ _ => (cleared_broadcast _).bind fun _ _ =>
      Emit.sends_pure _

/-- **All blocks but that of a list are cleared.** -/
theorem serve_mem {buf : ReceiveLine} (h : buf.reqType ≠ REQ_LIST) (mem mem' : Heap) :
    serve mem s a buf drawn now = serve mem' s a buf drawn now := by
  have hclear : ∀ {α : Type} {x : Act α}, Cleared x → encodeAct mem x = encodeAct mem' x :=
    fun hx => hx.encodeAct_eq mem mem'
  simp only [serve, if_neg h, serveLogin, serveSay, serveJoin, serveWho, serveLeave, serveServJoin,
    serveServSay, servSay, hclear (cleared_reqLogin _), hclear cleared_reqLogout,
    hclear cleared_reqJoin, hclear cleared_reqWho, hclear cleared_reqLeave,
    hclear (cleared_reqSay _), hclear cleared_reqServJoin, hclear (cleared_deliverLoop _)]

end Cleared

/-! ### The reply to a list -/

section TextList

variable {mem mem' : Heap} {names : List Name} {reL reL' : List UInt8} {i k : ℕ}

@[simp] theorem length_listLoop : (listLoop reL i names).length = reL.length := by
  induction names generalizing reL i with
  | nil => rfl
  | cons c cs ih => rw [listLoop, ih, length_strcpy]

/-- **Names that fill their slots**: blocks that agree up to the first slot agree up to the end of
the last one. -/
theorem listLoop_agree (hfull : ∀ c ∈ names, c.bytes.length + 1 = CHANNEL_MAX)
    (hlen : reL.length = reL'.length)
    (h : ∀ k < offTxtChannels + CHANNEL_MAX * i, reL[k]? = reL'[k]?) :
    ∀ k < offTxtChannels + CHANNEL_MAX * (i + names.length),
      (listLoop reL i names)[k]? = (listLoop reL' i names)[k]? := by
  induction names generalizing reL reL' i with
  | nil => exact h
  | cons c cs ih =>
    have hc : (c.bytes ++ [0]).length = CHANNEL_MAX := by
      rw [List.length_append, List.length_singleton, hfull c List.mem_cons_self]
    have hcopy : ∀ k < offTxtChannels + CHANNEL_MAX * (i + 1),
        (strcpy reL (offTxtChannels + CHANNEL_MAX * i) c.bytes)[k]? =
          (strcpy reL' (offTxtChannels + CHANNEL_MAX * i) c.bytes)[k]? :=
      fun k hk => put_agree _ _ hlen h k (by rw [hc]; rw [Nat.mul_succ] at hk; omega)
    have hnext := ih (fun d hd => hfull d (List.mem_cons_of_mem _ hd))
      (by rw [length_strcpy, length_strcpy, hlen]) hcopy
    intro k hk
    exact hnext k (by rw [List.length_cons] at hk; rwa [Nat.add_right_comm, Nat.add_assoc] )

/-- A place that no name is copied to keeps what the block held. -/
theorem getElem?_listLoop (h : ∀ j c, names[j]? = some c →
      k < offTxtChannels + CHANNEL_MAX * (i + j) ∨
        offTxtChannels + CHANNEL_MAX * (i + j) + c.bytes.length < k) :
    (listLoop reL i names)[k]? = reL[k]? := by
  induction names generalizing reL i with
  | nil => rfl
  | cons c cs ih =>
    rw [listLoop, ih fun j d hd => ?_]
    · refine getElem?_put_of_outside ?_
      have h0 := h 0 c rfl
      rw [List.length_append, List.length_singleton]
      rw [Nat.add_zero] at h0
      omega
    · have hj := h (j + 1) d hd
      rwa [← Nat.add_assoc, Nat.add_right_comm] at hj

/-- The block of the reply, with its two numbers. -/
def listHeader (mem : Heap) (n : ℕ) : List UInt8 :=
  putNat (putNat ((List.range (offTxtChannels + CHANNEL_MAX * n)).map mem) 0 sizeofInt TXT_LIST)
    sizeofInt sizeofInt n

theorem textList_eq (mem : Heap) (names : List Name) :
    textList mem names = listLoop (listHeader mem names.length) 0 names := rfl

@[simp] theorem length_listHeader (mem : Heap) (n : ℕ) :
    (listHeader mem n).length = offTxtChannels + CHANNEL_MAX * n := by
  simp [listHeader]

theorem listHeader_agree (mem mem' : Heap) (n : ℕ) :
    ∀ k < offTxtChannels, (listHeader mem n)[k]? = (listHeader mem' n)[k]? := by
  have hblock : ∀ mem mem' : Heap,
      ((List.range (offTxtChannels + CHANNEL_MAX * n)).map mem).length =
        ((List.range (offTxtChannels + CHANNEL_MAX * n)).map mem').length := by simp
  refine put_agree sizeofInt (leBytes sizeofInt n) (by simp) fun k hk => ?_
  refine put_agree 0 _ (hblock mem mem') (fun k hk => absurd hk (Nat.not_lt_zero k)) k ?_
  rwa [length_leBytes, Nat.zero_add]

/-- Behind the numbers is what the block held. -/
theorem getElem?_listHeader (hk : offTxtChannels ≤ k) {n : ℕ}
    (hlt : k < offTxtChannels + CHANNEL_MAX * n) : (listHeader mem n)[k]? = some (mem k) := by
  have hoff : offTxtChannels = sizeofInt + sizeofInt := rfl
  rw [listHeader, putNat, putNat,
    getElem?_put_of_outside (Or.inr (by rw [length_leBytes]; omega)),
    getElem?_put_of_outside (Or.inr (by rw [length_leBytes]; omega)), List.getElem?_map,
    List.getElem?_range hlt]
  rfl

/-- **The reply to a list shows nothing of its block** exactly if every name fills its slot. -/
theorem textList_eq_iff : (∀ mem mem', textList mem names = textList mem' names) ↔
    ∀ c ∈ names, c.bytes.length + 1 = CHANNEL_MAX := by
  constructor
  · intro h c hc
    obtain ⟨i, hi, rfl⟩ := List.getElem_of_mem hc
    have hfits : ∀ d : Name, d.bytes.length < CHANNEL_MAX := CStr.fits
    by_contra hshort
    -- the last byte of the slot of a short name
    have hkeep : ∀ mem, (textList mem names)[offTxtChannels + CHANNEL_MAX * i + 31]? =
        some (mem (offTxtChannels + CHANNEL_MAX * i + 31)) := by
      intro mem
      rw [textList_eq, getElem?_listLoop, getElem?_listHeader (by omega)]
      · simp only [CHANNEL_MAX]
        omega
      · intro j d hd
        have := hfits d
        have := hfits names[i]
        simp only [CHANNEL_MAX] at *
        rcases Nat.lt_trichotomy i j with hij | rfl | hij
        · omega
        · rw [List.getElem?_eq_getElem hi, Option.some.injEq] at hd
          subst hd
          omega
        · omega
    have h01 := hkeep fun _ => 0
    rw [h _ fun _ => 1, hkeep fun _ => 1] at h01
    cases h01
  · intro hfull mem mem'
    refine List.ext_getElem? fun k => ?_
    rw [textList_eq, textList_eq]
    by_cases hk : k < offTxtChannels + CHANNEL_MAX * names.length
    · refine listLoop_agree (i := 0) hfull (by simp) ?_ k (by rwa [Nat.zero_add])
      exact listHeader_agree mem mem' names.length
    · rw [List.getElem?_eq_none (by simpa using hk), List.getElem?_eq_none (by simpa using hk)]

end TextList

end DuckChat
