import DuckChat.Rooms

/-!
# What a terminal shows

`recv_thread` writes literals and fields of its buffer to the terminal, each field as wide as it is.
Behind the string in a field there are zeros where the server cleared the structure, and whatever
`malloc` left there where it did not.

Every text that a server sends is one that a client shows as what it says: the numbers of its arrays
are those of a table, and a who was written in its block.

## Main definitions

* `Printing.written`, `printed` — the bytes for a datagram
* `Prints`, `Displays` — what there is to see of a notice
* `Text.Fits` — texts that come from a table

## Main results

* `displays_encode` — a text that tells something shows it
* `sendable_react` — every text that a server sends is such a text
-/

set_option autoImplicit false

namespace DuckChat

/-! ### The terminal -/

/-- The bytes that are written. -/
def Printing.written (buff : List UInt8) : Printing → List UInt8
  | .number _ => []
  | .literal bytes => bytes
  | .field f => slice buff f.off f.size

/-- What a client writes to its terminal for a datagram. -/
def printed (d : List UInt8) : List UInt8 :=
  (recvThread (recvBuff d)).flatMap (Printing.written (recvBuff d))

/-- `n` bytes with a string in front and zeros behind it. -/
def padded (n : ℕ) (str : List UInt8) : List UInt8 := str ++ zeroed (n - str.length)

/-- `n` bytes with a string in front, whatever stands behind its terminator. -/
def IsField {n : ℕ} (str : CStr n) (bytes : List UInt8) : Prop :=
  bytes.length = n ∧ cstring bytes = str.bytes

/-- An item on each line. -/
def itemLines (items : List (List UInt8)) : List UInt8 := items.flatMap (ascii "\n\t" ++ ·)

/-- What there is to see of a notice. The terminator of two of the literals is written with them. -/
def Prints : ChatNotice → List UInt8 → Prop
  | .said c u t, bytes => bytes = ascii "[" ++ padded CHANNEL_MAX c.bytes ++ ascii "]" ++ ascii "["
      ++ padded USERNAME_MAX u.bytes ++ ascii "]: " ++ padded SAY_MAX t.bytes
  | .rooms cs, bytes => ∃ names : List Name, names.Nodup ∧ (∀ c, c ∈ names ↔ c ∈ cs) ∧
      ∃ items, List.Forall₂ IsField names items ∧
        bytes = ascii "Existing Channels:" ++ [0] ++ itemLines items
  | .members c us, bytes => ∃ users : List Username, users.Nodup ∧ (∀ u, u ∈ users ↔ u ∈ us) ∧
      ∃ room items, IsField c room ∧ List.Forall₂ IsField users items ∧
        bytes = ascii "All users in " ++ [0] ++ room ++ itemLines items
  | .unknown c, bytes => ∃ str, (fillError c = .error str ∨ whoError c = .error str) ∧
      bytes = padded SAY_MAX str.bytes

/-- The prompt is taken back, the notice printed, and a new prompt behind it. -/
def Displays (k : ChatNotice) (bytes : List UInt8) : Prop :=
  ∃ body, Prints k body ∧ bytes = List.replicate 50 8 ++ body ++ ascii "\n> "

/-- A text that comes from a table: a list is no longer than one, and a who was written in its
block. -/
def Text.Fits : Text → Prop
  | .list names => names.length ≤ MAX_USERS
  | .who c _ users whoLen => users.length ≤ MAX_USERS ∧ whoLen ≤ BUFSIZ ∧
      8 + c.bytes.length + 1 ≤ whoLen ∧
      ∀ st ∈ slotWrites offTxtUsers USERNAME_MAX 0 (users.map CStr.bytes), st.Inside whoLen
  | _ => True

section Written

variable {buff d body : List UInt8} {ps qs : List Printing} {fs : List Field} {n : ℕ}

/-- The prompt is taken back and printed again, whatever comes between. -/
theorem printed_eq (d : List UInt8) :
    printed d = List.replicate 50 8 ++
      (printText (recvBuff d)).flatMap (Printing.written (recvBuff d)) ++ ascii "\n> " := by
  have hclear : (clearStdout 50).flatMap (Printing.written (recvBuff d)) = List.replicate 50 8 := by
    rw [clearStdout, List.flatMap_replicate]
    rfl
  rw [printed, recvThread, List.append_assoc, List.flatMap_append, hclear, List.append_assoc]
  congr 1
  rw [List.cons_append, List.flatMap_cons, List.flatMap_append]
  rfl

theorem flatMap_printLines (buff : List UInt8) (fs : List Field) :
    (printLines fs).flatMap (Printing.written buff) =
      itemLines (fs.map fun f => slice buff f.off f.size) := by
  induction fs with
  | nil => rfl
  | cons f fs ih =>
    have hcons : printLines (f :: fs) = .literal (ascii "\n\t") :: .field f :: printLines fs := rfl
    rw [hcons, List.flatMap_cons, List.flatMap_cons, ih, List.map_cons, itemLines, itemLines,
      List.flatMap_cons, List.append_assoc]
    rfl

/-- What is written for each type of text. -/
theorem written_say (h : txtType buff = TXT_SAY) :
    (printText buff).flatMap (Printing.written buff) =
      ascii "[" ++ slice buff offTxtChannel CHANNEL_MAX ++ ascii "]" ++ ascii "[" ++
        slice buff offTxtUsername USERNAME_MAX ++ ascii "]: " ++ slice buff offTxtText SAY_MAX := by
  rw [printText, h, if_pos rfl, sayTextOutput]
  simp only [List.flatMap_cons, List.flatMap_nil, Printing.written, List.append_nil,
    List.append_assoc]

/-- A literal, a number that is only read, and an array. -/
theorem flatMap_array (lit : List UInt8) (f : Field) :
    (.literal lit :: .number f :: printLines fs).flatMap (Printing.written buff) =
      lit ++ itemLines (fs.map fun f => slice buff f.off f.size) := by
  rw [List.flatMap_cons, List.flatMap_cons, flatMap_printLines]
  rfl

theorem written_list (h : txtType buff = TXT_LIST) :
    (printText buff).flatMap (Printing.written buff) =
      ascii "Existing Channels:" ++ [0] ++
        itemLines ((channelFields (txtCount buff)).map fun f => slice buff f.off f.size) := by
  rw [printText, h, if_neg (by decide), if_pos rfl]
  exact flatMap_array _ _

theorem written_who (h : txtType buff = TXT_WHO) :
    (printText buff).flatMap (Printing.written buff) =
      ascii "All users in " ++ [0] ++ slice buff offTxtWhoChannel CHANNEL_MAX ++
        itemLines ((userFields (txtCount buff)).map fun f => slice buff f.off f.size) := by
  have hsplit : ∀ (lit : List UInt8) (f g : Field) (fs : List Field),
      (.literal lit :: .field f :: .number g :: printLines fs).flatMap (Printing.written buff) =
        lit ++ slice buff f.off f.size ++ itemLines (fs.map fun f => slice buff f.off f.size) := by
    intro lit f g fs
    rw [List.flatMap_cons, List.flatMap_cons, List.flatMap_cons, flatMap_printLines,
      List.append_assoc]
    rfl
  rw [printText, h, if_neg (by decide), if_neg (by decide), if_pos rfl]
  exact hsplit _ _ _ _

theorem written_error (h : txtType buff = TXT_ERROR) :
    (printText buff).flatMap (Printing.written buff) = slice buff offTxtError SAY_MAX := by
  rw [printText, h, if_neg (by decide), if_neg (by decide), if_neg (by decide), if_pos rfl,
    List.flatMap_cons]
  exact List.append_nil _

theorem length_recvBuff (d : List UInt8) : (recvBuff d).length = BUFSIZ := by
  rw [recvBuff, length_put, length_zeroed]

/-- A field of the buffer is as wide as it is. -/
theorem isField_slice {str : CStr n} {off : ℕ} (h : off + n ≤ BUFSIZ)
    (hs : cstring (slice (recvBuff d) off n) = str.bytes) :
    IsField str (slice (recvBuff d) off n) := by
  refine ⟨?_, hs⟩
  rw [slice, List.length_take, List.length_drop, length_recvBuff]
  omega

/-- The strings at the start of fields, and the fields. -/
theorem forall₂_isField {strs : List (CStr n)} {base : ℕ} {k : ℤ}
    (h : (slotFields base n k).map (Field.str (recvBuff d)) = strs.map CStr.bytes)
    (hin : ∀ f ∈ slotFields base n k, f.Inside) :
    List.Forall₂ IsField strs
      ((slotFields base n k).map fun f => slice (recvBuff d) f.off f.size) := by
  rw [List.forall₂_map_right_iff]
  have hrel : List.Forall₂ (fun str f => Field.str (recvBuff d) f = CStr.bytes str) strs
      (slotFields base n k) := by
    have heq := List.forall₂_eq_eq_eq ▸ h.symm
    exact List.forall₂_map_right_iff.mp (List.forall₂_map_left_iff.mp heq) |>.imp
      fun _ _ h => h.symm
  refine List.forall₂_iff_get.mpr ⟨hrel.length_eq, fun i hi hi' => ?_⟩
  have hmem := List.get_mem (slotFields base n k) ⟨i, hi'⟩
  have hstr := (List.forall₂_iff_get.mp hrel).2 i hi hi'
  obtain ⟨j, -, hj⟩ := List.mem_map.mp hmem
  have hsize : ((slotFields base n k).get ⟨i, hi'⟩).size = n := by rw [← hj]
  have hinside := hin _ hmem
  rw [Field.Inside, hsize] at hinside
  rw [Field.str, hsize] at hstr
  rw [hsize]
  exact isField_slice hinside hstr

end Written

/-! ### Structures that are cleared -/

section Cleared

variable {buf : List UInt8} {off n : ℕ}

/-- A string that is copied to a field of zeros. -/
theorem slice_strcpy_zeroed (str : CStr n) (h : off + n ≤ buf.length)
    (hz : slice buf off n = zeroed n) :
    slice (strcpy buf off str.bytes) off n = padded n str.bytes := by
  have hfit := str.fits
  have hlen : (str.bytes ++ [0]).length = str.bytes.length + 1 := by simp
  have hrest : slice buf (off + (str.bytes.length + 1)) (n - (str.bytes.length + 1)) =
      zeroed (n - (str.bytes.length + 1)) := by
    have hdrop := congrArg (List.drop (str.bytes.length + 1)) hz
    rw [slice, List.drop_take, List.drop_drop, zeroed, List.drop_replicate] at hdrop
    exact hdrop
  have hone : n - str.bytes.length = 1 + (n - (str.bytes.length + 1)) := by omega
  rw [strcpy, slice_put_self (by omega), hlen, List.take_of_length_le (by omega), hrest, padded,
    hone, List.append_assoc, zeroed, zeroed, List.replicate_add]
  rfl

theorem slice_zeroed {m : ℕ} (h : off + n ≤ m) : slice (zeroed m) off n = zeroed n := by
  rw [slice, zeroed, List.drop_replicate, List.take_replicate, Nat.min_eq_left (by omega), zeroed]

/-- The fields of a say. -/
theorem slices_saySend (c : Name) (u : Username) (t : SayText) :
    ofLeBytes (slice (saySend c u t) 0 sizeofInt) = TXT_SAY ∧
      slice (saySend c u t) offTxtChannel CHANNEL_MAX = padded CHANNEL_MAX c.bytes ∧
      slice (saySend c u t) offTxtUsername USERNAME_MAX = padded USERNAME_MAX u.bytes ∧
      slice (saySend c u t) offTxtText SAY_MAX = padded SAY_MAX t.bytes := by
  rw [saySend_eq_fillTextSayBytes, fillTextSayBytes]
  have hz : ∀ off n, sizeofInt ≤ off → off + n ≤ sizeofTextSay →
      slice (putNat (zeroed sizeofTextSay) 0 sizeofInt TXT_SAY) off n = zeroed n := by
    intro off n hoff hle
    rw [slice_putNat_of_disjoint (Or.inl (by omega)), slice_zeroed hle]
  have hlen : ∀ off n, off + n ≤ sizeofTextSay →
      off + n ≤ (putNat (zeroed sizeofTextSay) 0 sizeofInt TXT_SAY).length := by
    intro off n hle
    rwa [length_putNat, length_zeroed]
  refine ⟨?_, ?_, ?_, ?_⟩
  · rw [slice_strcpy_of_disjoint t.fits (Or.inr (by decide)),
      slice_strcpy_of_disjoint u.fits (Or.inr (by decide)),
      slice_strcpy_of_disjoint c.fits (Or.inr (by decide))]
    exact ofLeBytes_slice_putNat (by decide) (by rw [length_zeroed]; decide)
  · rw [slice_strcpy_of_disjoint t.fits (Or.inr (by decide)),
      slice_strcpy_of_disjoint u.fits (Or.inr (by decide))]
    exact slice_strcpy_zeroed c (hlen _ _ (by decide)) (hz _ _ (by decide) (by decide))
  · rw [slice_strcpy_of_disjoint t.fits (Or.inr (by decide))]
    refine slice_strcpy_zeroed u ?_ ?_
    · rw [length_strcpy]
      exact hlen _ _ (by decide)
    · rw [slice_strcpy_of_disjoint c.fits (Or.inl (by decide))]
      exact hz _ _ (by decide) (by decide)
  · refine slice_strcpy_zeroed t ?_ ?_
    · rw [length_strcpy, length_strcpy]
      exact hlen _ _ (by decide)
    · rw [slice_strcpy_of_disjoint u.fits (Or.inl (by decide)),
        slice_strcpy_of_disjoint c.fits (Or.inl (by decide))]
      exact hz _ _ (by decide) (by decide)

/-- The fields of an error. -/
theorem slices_textError (str : SayText) :
    ofLeBytes (slice (textError str.bytes) 0 sizeofInt) = TXT_ERROR ∧
      slice (textError str.bytes) offTxtError SAY_MAX = padded SAY_MAX str.bytes := by
  rw [textError]
  constructor
  · rw [slice_strcpy_of_disjoint str.fits (Or.inr (by decide))]
    exact ofLeBytes_slice_putNat (by decide) (by rw [length_zeroed]; decide)
  · refine slice_strcpy_zeroed str ?_ ?_
    · rw [length_putNat, length_zeroed]
    · rw [slice_putNat_of_disjoint (Or.inl (by decide)), slice_zeroed (by decide)]

end Cleared

/-! ### Texts -/

section Texts

variable {mem : Heap} {c : Name} {cs : Set Name} {us : Set Username} {names : List Name}
  {users : List Username} {n : ℤ} {whoLen : ℕ} {k : ChatNotice} {t : Text}

theorem displays_say (c : Name) (u : Username) (t : SayText) :
    Displays (.said c u t) (printed (saySend c u t)) := by
  have hlen : (saySend c u t).length = sizeofTextSay := by
    simp only [saySend, length_strcpy, length_putNat, length_zeroed]
  have hle : (saySend c u t).length ≤ BUFSIZ := by
    rw [hlen]
    decide
  obtain ⟨htype, hc, hu, ht⟩ := slices_saySend c u t
  have hslice : ∀ off k, off + k ≤ sizeofTextSay →
      slice (recvBuff (saySend c u t)) off k = slice (saySend c u t) off k :=
    fun off k hk => slice_recvBuff hle (by rwa [hlen])
  have htype : txtType (recvBuff (saySend c u t)) = TXT_SAY := by
    rw [txtType, hslice 0 sizeofInt (by decide), htype]
  refine ⟨_, rfl, ?_⟩
  rw [printed_eq, written_say htype, hslice offTxtChannel CHANNEL_MAX (by decide),
    hslice offTxtUsername USERNAME_MAX (by decide), hslice offTxtText SAY_MAX (by decide), hc, hu,
    ht]

theorem displays_error {str : SayText} (h : fillError c = .error str ∨ whoError c = .error str) :
    Displays (.unknown c) (printed (textError str.bytes)) := by
  have hlen : (textError str.bytes).length = sizeofInt + SAY_MAX := by
    rw [textError, length_strcpy, length_putNat, length_zeroed]
  have hle : (textError str.bytes).length ≤ BUFSIZ := by
    rw [hlen]
    decide
  obtain ⟨htype, hstr⟩ := slices_textError str
  have hslice : ∀ off k, off + k ≤ sizeofInt + SAY_MAX →
      slice (recvBuff (textError str.bytes)) off k = slice (textError str.bytes) off k :=
    fun off k hk => slice_recvBuff hle (by rwa [hlen])
  have htype : txtType (recvBuff (textError str.bytes)) = TXT_ERROR := by
    rw [txtType, hslice 0 sizeofInt (by decide), htype]
  refine ⟨_, ⟨str, h, rfl⟩, ?_⟩
  rw [printed_eq, written_error htype, hslice offTxtError SAY_MAX (by decide), hstr]

theorem displays_list (hlen : names.length ≤ MAX_USERS) (hnd : names.Nodup)
    (hcs : ∀ c, c ∈ names ↔ c ∈ cs) : Displays (.rooms cs) (printed (textList mem names)) := by
  have hblock : (mem.block (offTxtChannels + CHANNEL_MAX * names.length)).length =
      8 + 32 * names.length := by
    rw [Heap.block, List.length_map, List.length_range]
    rfl
  obtain ⟨htype, hnames⟩ := decode_listWrites hlen hblock
  rw [← textList_eq_putAll] at htype hnames
  have hcount : (txtCount (recvBuff (textList mem names))).toNat = names.length := by
    have := congrArg List.length hnames
    rwa [readList, channelFields, slotFields, List.length_map, List.length_map, List.length_range,
      List.length_map] at this
  have hin : ∀ f ∈ channelFields (txtCount (recvBuff (textList mem names))), f.Inside := by
    refine inside_slotFields_iff.mpr fun hpos => ?_
    have hmax : names.length ≤ 32 := hlen
    show (8 : ℤ) + 32 * _ ≤ 8192
    omega
  refine ⟨_, ⟨names, hnd, hcs, _, forall₂_isField hnames hin, rfl⟩, ?_⟩
  rw [printed_eq, written_list htype, channelFields]

theorem displays_who (hn : n = users.length) (hnd : users.Nodup) (hus : ∀ u, u ∈ users ↔ u ∈ us)
    (hf : (Text.who c n users whoLen).Fits) :
    Displays (.members c us) (printed (textWho c n users whoLen)) := by
  obtain ⟨hlen, hbuf, hroom, hin⟩ := hf
  have hmax : users.length ≤ 32 := hlen
  have hdecode : txtType (recvBuff (putAll (zeroed whoLen) (whoWrites c n users))) = TXT_WHO ∧
      readWho (recvBuff (putAll (zeroed whoLen) (whoWrites c n users))) =
        (c.bytes, users.map CStr.bytes) :=
    decode_whoWrites (by rwa [length_zeroed]) (by omega) (by omega) hmax (by rwa [length_zeroed])
      (by rwa [length_zeroed])
  rw [← textWho_eq_putAll] at hdecode
  obtain ⟨htype, hwho⟩ := hdecode
  obtain ⟨hc, husers⟩ := Prod.mk.inj hwho
  have hcount : (txtCount (recvBuff (textWho c n users whoLen))).toNat = users.length := by
    have := congrArg List.length husers
    rwa [userFields, slotFields, List.length_map, List.length_map, List.length_range,
      List.length_map] at this
  have hins : ∀ f ∈ userFields (txtCount (recvBuff (textWho c n users whoLen))), f.Inside := by
    refine inside_slotFields_iff.mpr fun hpos => ?_
    show (40 : ℤ) + 32 * _ ≤ 8192
    omega
  refine ⟨_, ⟨users, hnd, hus, _, _, isField_slice (by decide) hc, forall₂_isField husers hins,
    rfl⟩, ?_⟩
  rw [printed_eq, written_who htype, userFields]

/-- **A text that tells something shows it**, whatever `malloc` left in its block. -/
theorem displays_encode (h : t.Tells k) (hf : t.Fits) (mem : Heap) :
    Displays k (printed (t.encode mem)) := by
  cases t with
  | say c u t =>
    cases k with
    | said c' u' t' =>
      obtain ⟨rfl, rfl, rfl⟩ := h
      exact displays_say c u t
    | rooms cs => exact absurd h id
    | members c us => exact absurd h id
    | unknown c => exact absurd h id
  | list names =>
    cases k with
    | rooms cs => exact displays_list hf h.1 h.2
    | said c' u' t' => exact absurd h id
    | members c us => exact absurd h id
    | unknown c => exact absurd h id
  | who c n users whoLen =>
    cases k with
    | members c' us =>
      obtain ⟨rfl, hn, hnd, hus⟩ := h
      exact displays_who hn hnd hus hf
    | said c' u' t' => exact absurd h id
    | rooms cs => exact absurd h id
    | unknown c => exact absurd h id
  | error str =>
    cases k with
    | unknown c => exact displays_error h
    | said c' u' t' => exact absurd h id
    | rooms cs => exact absurd h id
    | members c us => exact absurd h id

end Texts

/-! ### What a server sends -/

/-- A text to one of some clients that comes from a table, or a packet to one of some servers. -/
def Datagram.Sendable (clients servers : List Sockaddr) (d : Datagram) : Prop :=
  match d.payload with
  | .text t => d.dest ∈ clients ∧ t.Fits
  | .s2s _ => d.dest ∈ servers

/-- The addresses of the users. -/
def ServerState.userAddrs (s : ServerState) : List Sockaddr := s.heap.map User.address

section Sendable

variable {s : ServerState} {a b : Sockaddr} {c : Name} {clients servers : List Sockaddr}
  {heap : List User} {es : List (Option User)}

theorem sendable_broadcast (m : S2S) :
    (broadcast s m).Sends (Datagram.Sendable clients s.neighbours) :=
  Emit.sends_emitAll fun d hd => by
    obtain ⟨b, hb, rfl⟩ := List.mem_map.mp hd
    exact hb

/-- Loops over the entries of a channel send to users. -/
theorem mem_clients_of_deref (hc : ∀ w ∈ heap, w.address ∈ clients) {e : Option User} {usr : User}
    (h : deref heap e = .ok usr) : usr.address ∈ clients :=
  hc usr (deref_eq_ok_iff.mp h).2

theorem sendable_sayLoop {chnl : Channel} {t : SayText} (hc : ∀ w ∈ heap, w.address ∈ clients) :
    (sayLoop heap chnl a c t es).Sends (Datagram.Sendable clients servers) := by
  induction es with
  | nil => exact Emit.sends_pure _
  | cons e es ih =>
    exact (Emit.sends_lift _).bind fun _ _ => (Emit.sends_lift _).bind fun _ _ =>
      (Emit.sends_lift _).bind fun usr hu =>
        (Emit.sends_emit ⟨mem_clients_of_deref hc hu, trivial⟩).bind fun _ _ => ih

theorem sendable_deliverLoop {m : SayS2S} (hc : ∀ w ∈ heap, w.address ∈ clients) :
    (deliverLoop heap (fillTextSay m.reqChannel m.reqUsername m.reqText) es).Sends
      (Datagram.Sendable clients servers) := by
  induction es with
  | nil => exact Emit.sends_pure _
  | cons e es ih =>
    exact (Emit.sends_lift _).bind fun usr hu =>
      (Emit.sends_emit ⟨mem_clients_of_deref hc hu, trivial⟩).bind fun _ _ => ih

theorem mem_userAddrs : ∀ w ∈ s.heap, w.address ∈ s.userAddrs := fun _ hw => List.mem_map_of_mem hw

theorem sendable_reqSay (t : SayText) (drawn : Id) :
    (reqSay s a c t drawn).Sends (Datagram.Sendable (a :: s.userAddrs) s.neighbours) := by
  rw [reqSay]
  split
  · exact (Emit.sends_emit ⟨List.mem_cons_self, trivial⟩).bind fun _ _ => Emit.sends_lift _
  · refine (sendable_sayLoop fun w hw => List.mem_cons_of_mem _ (mem_userAddrs w hw)).bind
      fun _ _ => (Emit.sends_lift _).bind fun usr _ => (Emit.sends_lift _).bind fun ids _ =>
        (Emit.sends_emitAll fun d hd => ?_).bind fun _ _ => Emit.sends_pure _
    obtain ⟨srvr, hs, rfl⟩ := List.mem_map.mp hd
    exact List.mem_map_of_mem (List.mem_of_mem_filter hs)

theorem sendable_reqJoin (now : ℤ) :
    (reqJoin s a c now).Sends (Datagram.Sendable clients s.neighbours) :=
  (sendable_broadcast _).bind fun _ _ => (Emit.sends_lift _).bind fun _ _ =>
    (Emit.sends_lift _).bind fun _ _ => Emit.sends_pure _

theorem sendable_reqLeave :
    (reqLeave s a c).Sends (Datagram.Sendable (a :: s.userAddrs) s.neighbours) := by
  rw [reqLeave]
  split
  · exact (Emit.sends_emit ⟨List.mem_cons_self, trivial⟩).bind fun _ _ => Emit.sends_pure _
  · refine (Emit.sends_lift _).bind fun r _ => ?_
    dsimp only
    split
    · exact (sendable_broadcast _).bind fun _ _ => Emit.sends_pure _
    · exact Emit.sends_pure _

/-- The names of a list are those of a table. -/
theorem sendable_reqList :
    (reqList s a).Sends (Datagram.Sendable (a :: s.userAddrs) s.neighbours) := by
  refine (Emit.sends_emit ⟨List.mem_cons_self, ?_⟩).bind fun _ _ => Emit.sends_pure _
  show (chnlNames s.channels).length ≤ MAX_USERS
  have hcount := s.channels.count_le
  rw [chnlNames, List.length_map, s.channels.length_live]
  omega

/-- A who that is sent was written in its block. -/
theorem sendable_reqWho :
    (reqWho s a c).Sends (Datagram.Sendable (a :: s.userAddrs) s.neighbours) := by
  cases hf : findChannel s.channels c with
  | none =>
    rw [reqWho, hf]
    dsimp only
    split
    · exact Emit.sends_lift _
    · exact (Emit.sends_emit ⟨List.mem_cons_self, trivial⟩).bind fun _ _ => Emit.sends_pure _
  | some chnl =>
    rw [reqWho_found hf]
    split
    · exact fun d hd => absurd hd List.not_mem_nil
    · next hroom =>
      cases hloop : whoLoop s.heap (36 + USERNAME_MAX * s.allUsers.count.toNat) 0 chnl.entries with
      | error f => exact fun d hd => absurd hd List.not_mem_nil
      | ok us =>
        obtain ⟨-, hus, hin⟩ := whoLoop_eq_ok_iff.mp hloop
        intro d hd
        rw [List.mem_singleton.mp hd]
        refine ⟨List.mem_cons_self, (length_names hus).2, ?_, Nat.le_of_not_lt hroom, hin⟩
        have hmax : s.allUsers.count ≤ 32 := s.allUsers.count_le
        rw [BUFSIZ, USERNAME_MAX]
        omega

theorem sendable_reqServJoin (now : ℤ) :
    (reqServJoin s a c now).Sends (Datagram.Sendable clients (a :: s.neighbours)) := by
  intro d hd
  rcases reqServJoin_cases s a c now with
    ⟨-, -, hnil⟩ | ⟨_, _, _, -, -, -, ⟨-, -, hnil⟩ | ⟨-, _, -, -, hout⟩⟩
  · rw [hnil] at hd
    exact absurd hd List.not_mem_nil
  · rw [hnil] at hd
    exact absurd hd List.not_mem_nil
  · rw [hout] at hd
    obtain ⟨b, hb, rfl⟩ := List.mem_map.mp hd
    exact List.mem_cons_of_mem _ hb

/-- The packet that refuses a say goes back to where it came from. -/
theorem sendable_reqServSay (m : SayS2S) :
    (reqServSay s a m).Sends (Datagram.Sendable s.userAddrs (a :: s.neighbours)) := by
  have hback : Datagram.Sendable s.userAddrs (a :: s.neighbours)
      ⟨a, .s2s (s2sFillLeave m.reqChannel)⟩ := List.mem_cons_self
  refine (Emit.sends_lift _).bind fun dup _ => ?_
  split
  · exact (Emit.sends_emit hback).bind fun _ _ => Emit.sends_pure _
  · refine (Emit.sends_lift _).bind fun ids _ => (Emit.sends_lift _).bind fun active _ => ?_
    dsimp only
    split
    · exact (Emit.sends_emit hback).bind fun _ _ => Emit.sends_pure _
    · refine (sendable_deliverLoop mem_userAddrs).bind fun _ _ =>
        (Emit.sends_emitAll fun d hd => ?_).bind fun _ _ => Emit.sends_pure _
      obtain ⟨srvr, hs, rfl⟩ := List.mem_map.mp hd
      exact List.mem_cons_of_mem _ (List.mem_map_of_mem (List.mem_of_mem_filter hs))

/-- The clients that may get a text for an input: the users, and one that asked. -/
def ServerState.customers (s : ServerState) : Input → List Sockaddr
  | .datagram a (.client _) _ _ => a :: s.userAddrs
  | _ => s.userAddrs

/-- The servers that may get a packet for an input: the neighbours, and one that sent it. -/
def ServerState.peers (s : ServerState) : Input → List Sockaddr
  | .datagram a (.s2s _) _ _ => a :: s.neighbours
  | _ => s.neighbours

/-- **What a server sends, and to whom**: texts that come from its tables, and packets. -/
theorem sendable_react (s : ServerState) (i : Input) :
    (react s i).Sends (Datagram.Sendable (s.customers i) (s.peers i)) := by
  have hnil : ∀ {out : List Datagram} {clients servers : List Sockaddr}, out = [] →
      ∀ d ∈ out, Datagram.Sendable clients servers d := by
    rintro _ _ _ rfl d hd
    exact absurd hd List.not_mem_nil
  rcases i with ⟨a, (rq | (c | c | m)), drawn, now⟩ | now | now
  · cases rq with
    | login u => exact hnil (reqLogin_out s a u)
    | logout => exact hnil (reqLogout_out s a)
    | join c => exact sendable_reqJoin now
    | leave c => exact sendable_reqLeave
    | say c t => exact sendable_reqSay t drawn
    | list => exact sendable_reqList
    | who c => exact sendable_reqWho
    | other k => exact Emit.sends_pure _
  · exact sendable_reqServJoin now
  · exact hnil (reqServLeave_cases s a c).1
  · exact sendable_reqServSay m
  · exact hnil (timeoutScan_out s now)
  · intro d hd
    obtain ⟨c, -, b, hb, rfl⟩ := mem_renewalPass_out hd
    exact hb

end Sendable

end DuckChat
