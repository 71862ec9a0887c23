import DuckChat.HelperFunctions
import DuckChat.Lib.Buffer

/-!
# The packed structures (`duckchat.h`)

The bytes that a say and the three packets between servers have on the wire, and how a server reads
a packet at the start of its receive buffer. An `int` has four bytes and an `unsigned long` eight,
lowest first. Each filler clears the structure and then writes its fields in the order of the
source, so that a field is at its place because the copies before and after it leave it alone.

A name is read up to its terminator; a field without one would be read into the next field, and
`field` refuses it.

## Main definitions

* `saySend`, `fillTextSayBytes` — the two encoders of `struct text_say`
* `SayS2S.bytes`, `S2S.bytes` — the structures that servers exchange
* `S2S.read` — the dispatch on `req_type`, and the fields of each structure

## Main results

* `saySend_eq_fillTextSayBytes` — the two encoders write the same bytes
* `S2S.read_bytes` — a packet is read as what was sent, whatever the buffer held behind it
-/

set_option autoImplicit false

namespace DuckChat

def TXT_SAY : ℕ := 0

def REQ_SERV_JOIN : ℕ := 8
def REQ_SERV_LEAVE : ℕ := 9
def REQ_SERV_SAY : ℕ := 10

def sizeofInt : ℕ := 4
def sizeofLong : ℕ := 8

/-! ### Fields -/

section Fields

/-- The string in a field of `n` chars, if it ends there. -/
def field (n : ℕ) (buf : List UInt8) (off : ℕ) : Option (CStr n) :=
  if h : 0 ∈ slice buf off n then
    some ⟨cstring (slice buf off n), noNul_cstring _, length_cstring_lt h (length_slice_le _ _ _)⟩
  else none

variable {n : ℕ} {buf buf' : List UInt8} {off : ℕ}

theorem field_congr (h : slice buf off n = slice buf' off n) :
    field n buf off = field n buf' off := by
  simp only [field, h]

theorem field_strcpy_self (str : CStr n) (h : off + n ≤ buf.length) :
    field n (strcpy buf off str.bytes) off = some str := by
  obtain ⟨rest, hr⟩ := slice_strcpy_self str.fits h
  have h0 : 0 ∈ slice (strcpy buf off str.bytes) off n := by
    rw [hr]
    exact List.mem_append_right _ List.mem_cons_self
  rw [field, dif_pos h0, Option.some.injEq]
  exact CStr.ext (cstring_slice_strcpy str.noNul str.fits h)

end Fields

/-! ### `struct text_say` -/

def offTxtChannel : ℕ := sizeofInt
def offTxtUsername : ℕ := offTxtChannel + CHANNEL_MAX
def offTxtText : ℕ := offTxtUsername + USERNAME_MAX
def sizeofTextSay : ℕ := offTxtText + SAY_MAX

/-- `memset(&ts, 0, sizeof(ts))`. -/
def zeroed (n : ℕ) : List UInt8 := List.replicate n 0

/-- The structure that the loop of `case REQ_SAY` fills and sends. -/
def saySend (reqChannel : Name) (username : Username) (reqText : SayText) : List UInt8 :=
  let ts := putNat (zeroed sizeofTextSay) 0 sizeofInt TXT_SAY
  let ts := strcpy ts offTxtChannel reqChannel.bytes
  let ts := strcpy ts offTxtText reqText.bytes
  strcpy ts offTxtUsername username.bytes

/-- The structure that `fill_text_say` returns. -/
def fillTextSayBytes (channel : Name) (username : Username) (text : SayText) : List UInt8 :=
  let ts := putNat (zeroed sizeofTextSay) 0 sizeofInt TXT_SAY
  let ts := strcpy ts offTxtChannel channel.bytes
  let ts := strcpy ts offTxtUsername username.bytes
  strcpy ts offTxtText text.bytes

/-- **The two encoders agree.** They write the user name and the text in different orders. -/
theorem saySend_eq_fillTextSayBytes (channel : Name) (username : Username) (text : SayText) :
    saySend channel username text = fillTextSayBytes channel username text := by
  rw [saySend, fillTextSayBytes]
  exact strcpy_comm text.fits username.fits (Or.inr (by decide))

/-! ### The structures between servers -/

def offReqChannel : ℕ := sizeofInt
def sizeofRequestJoin : ℕ := offReqChannel + CHANNEL_MAX

/-- `s2s_fill_join` and `s2s_fill_leave`, whose structures differ in the type only. -/
def fillRequest (reqType : ℕ) (channel : Name) : List UInt8 :=
  strcpy (putNat (zeroed sizeofRequestJoin) 0 sizeofInt reqType) offReqChannel channel.bytes

def offSayId : ℕ := sizeofInt
def offSayUsername : ℕ := offSayId + sizeofLong
def offSayChannel : ℕ := offSayUsername + USERNAME_MAX
def offSayText : ℕ := offSayChannel + CHANNEL_MAX
def sizeofRequestSayS2S : ℕ := offSayText + SAY_MAX

/-- The structure that `s2s_fill_say` returns. -/
def s2sFillSayBytes (channel : Name) (username : Username) (text : SayText) : List UInt8 :=
  let rss := putNat (zeroed sizeofRequestSayS2S) 0 sizeofInt REQ_SERV_SAY
  let rss := strcpy rss offSayChannel channel.bytes
  let rss := strcpy rss offSayUsername username.bytes
  strcpy rss offSayText text.bytes

/-- The structure that `case REQ_SAY` sends: it stores the identifier last. -/
def SayS2S.bytes (rss : SayS2S) : List UInt8 :=
  putNat (s2sFillSayBytes rss.reqChannel rss.reqUsername rss.reqText) offSayId sizeofLong
    rss.id.toNat

/-- A packet as it is sent. -/
def S2S.bytes : S2S → List UInt8
  | .join c => fillRequest REQ_SERV_JOIN c
  | .leave c => fillRequest REQ_SERV_LEAVE c
  | .say rss => rss.bytes

/-- The fields of a `struct request_say_s2s`. -/
def SayS2S.read (buf : List UInt8) : Option SayS2S := do
  let username ← field USERNAME_MAX buf offSayUsername
  let channel ← field CHANNEL_MAX buf offSayChannel
  let text ← field SAY_MAX buf offSayText
  pure
    { id := UInt64.ofNat (ofLeBytes (slice buf offSayId sizeofLong))
      reqUsername := username
      reqChannel := channel
      reqText := text }

/-- What a server reads at the start of its receive buffer, if it is a packet of a server. -/
def S2S.read (buf : List UInt8) : Option S2S :=
  let reqType := ofLeBytes (slice buf 0 sizeofInt)
  if reqType = REQ_SERV_JOIN then (field CHANNEL_MAX buf offReqChannel).map .join
  else if reqType = REQ_SERV_LEAVE then (field CHANNEL_MAX buf offReqChannel).map .leave
  else if reqType = REQ_SERV_SAY then (SayS2S.read buf).map .say
  else none

section RoundTrip

variable {buf buf' rest : List UInt8} {c : Name}

@[simp] theorem length_zeroed (n : ℕ) : (zeroed n).length = n := List.length_replicate

@[simp] theorem length_fillRequest (reqType : ℕ) (c : Name) :
    (fillRequest reqType c).length = sizeofRequestJoin := by
  simp only [fillRequest, length_strcpy, length_putNat, length_zeroed]

@[simp] theorem SayS2S.length_bytes (rss : SayS2S) : rss.bytes.length = sizeofRequestSayS2S := by
  simp only [SayS2S.bytes, s2sFillSayBytes, length_putNat, length_strcpy, length_zeroed]

theorem reqType_fillRequest {reqType : ℕ} (h : reqType < 256) (c : Name) :
    ofLeBytes (slice (fillRequest reqType c) 0 sizeofInt) = reqType := by
  rw [fillRequest, slice_strcpy_of_disjoint c.fits (Or.inr (by decide))]
  refine ofLeBytes_slice_putNat (Nat.lt_of_lt_of_le h (by decide)) ?_
  rw [length_zeroed]
  decide

theorem field_fillRequest (reqType : ℕ) (c : Name) :
    field CHANNEL_MAX (fillRequest reqType c) offReqChannel = some c := by
  refine field_strcpy_self c ?_
  rw [length_putNat, length_zeroed]
  decide

theorem SayS2S.reqType_bytes (rss : SayS2S) :
    ofLeBytes (slice rss.bytes 0 sizeofInt) = REQ_SERV_SAY := by
  rw [SayS2S.bytes, s2sFillSayBytes, slice_putNat_of_disjoint (Or.inr (by decide)),
    slice_strcpy_of_disjoint rss.reqText.fits (Or.inr (by decide)),
    slice_strcpy_of_disjoint rss.reqUsername.fits (Or.inr (by decide)),
    slice_strcpy_of_disjoint rss.reqChannel.fits (Or.inr (by decide))]
  refine ofLeBytes_slice_putNat (by decide) ?_
  rw [length_zeroed]
  decide

theorem SayS2S.id_bytes (rss : SayS2S) :
    UInt64.ofNat (ofLeBytes (slice rss.bytes offSayId sizeofLong)) = rss.id := by
  rw [SayS2S.bytes, ofLeBytes_slice_putNat]
  · exact UInt64.ofNat_toNat
  · exact Nat.lt_of_lt_of_le rss.id.toNat_lt (by decide)
  · simp only [s2sFillSayBytes, length_strcpy, length_putNat, length_zeroed]
    decide

theorem SayS2S.username_bytes (rss : SayS2S) :
    field USERNAME_MAX rss.bytes offSayUsername = some rss.reqUsername := by
  have hslice : slice rss.bytes offSayUsername USERNAME_MAX =
      slice (strcpy (strcpy (putNat (zeroed sizeofRequestSayS2S) 0 sizeofInt REQ_SERV_SAY)
        offSayChannel rss.reqChannel.bytes) offSayUsername rss.reqUsername.bytes)
        offSayUsername USERNAME_MAX := by
    rw [SayS2S.bytes, s2sFillSayBytes, slice_putNat_of_disjoint (Or.inl (by decide)),
      slice_strcpy_of_disjoint rss.reqText.fits (Or.inr (by decide))]
  rw [field_congr hslice, field_strcpy_self]
  rw [length_strcpy, length_putNat, length_zeroed]
  decide

theorem SayS2S.channel_bytes (rss : SayS2S) :
    field CHANNEL_MAX rss.bytes offSayChannel = some rss.reqChannel := by
  have hslice : slice rss.bytes offSayChannel CHANNEL_MAX =
      slice (strcpy (putNat (zeroed sizeofRequestSayS2S) 0 sizeofInt REQ_SERV_SAY)
        offSayChannel rss.reqChannel.bytes) offSayChannel CHANNEL_MAX := by
    rw [SayS2S.bytes, s2sFillSayBytes, slice_putNat_of_disjoint (Or.inl (by decide)),
      slice_strcpy_of_disjoint rss.reqText.fits (Or.inr (by decide)),
      slice_strcpy_of_disjoint rss.reqUsername.fits (Or.inl (by decide))]
  rw [field_congr hslice, field_strcpy_self]
  rw [length_putNat, length_zeroed]
  decide

theorem SayS2S.text_bytes (rss : SayS2S) :
    field SAY_MAX rss.bytes offSayText = some rss.reqText := by
  have hslice : slice rss.bytes offSayText SAY_MAX =
      slice (s2sFillSayBytes rss.reqChannel rss.reqUsername rss.reqText) offSayText SAY_MAX := by
    rw [SayS2S.bytes, slice_putNat_of_disjoint (Or.inl (by decide))]
  rw [field_congr hslice, s2sFillSayBytes, field_strcpy_self]
  rw [length_strcpy, length_strcpy, length_putNat, length_zeroed]
  decide

/-- Reading depends on the bytes of the structure only. -/
theorem SayS2S.read_append (rest : List UInt8) (h : sizeofRequestSayS2S ≤ buf.length) :
    SayS2S.read (buf ++ rest) = SayS2S.read buf := by
  have hs : ∀ off n, off + n ≤ sizeofRequestSayS2S →
      slice (buf ++ rest) off n = slice buf off n :=
    fun off n hle => slice_append_left rest (Nat.le_trans hle h)
  simp only [SayS2S.read, hs offSayId sizeofLong (by decide),
    field_congr (hs offSayUsername USERNAME_MAX (by decide)),
    field_congr (hs offSayChannel CHANNEL_MAX (by decide)),
    field_congr (hs offSayText SAY_MAX (by decide))]

theorem SayS2S.read_bytes (rss : SayS2S) : SayS2S.read rss.bytes = some rss := by
  simp only [SayS2S.read, SayS2S.username_bytes, SayS2S.channel_bytes, SayS2S.text_bytes,
    SayS2S.id_bytes, Option.bind_eq_bind, Option.bind_some, Option.pure_def]

theorem read_fillRequest (reqType : ℕ) (h : reqType < 256) (c : Name) (rest : List UInt8) :
    ofLeBytes (slice (fillRequest reqType c ++ rest) 0 sizeofInt) = reqType ∧
      field CHANNEL_MAX (fillRequest reqType c ++ rest) offReqChannel = some c := by
  have hs : ∀ off n, off + n ≤ sizeofRequestJoin →
      slice (fillRequest reqType c ++ rest) off n = slice (fillRequest reqType c) off n :=
    fun off n hle => slice_append_left rest (by rwa [length_fillRequest])
  rw [hs 0 sizeofInt (by decide), field_congr (hs offReqChannel CHANNEL_MAX (by decide))]
  exact ⟨reqType_fillRequest h c, field_fillRequest reqType c⟩

/-- **A packet is read as what was sent**, whatever the receive buffer holds behind it. -/
theorem S2S.read_bytes (m : S2S) (rest : List UInt8) : S2S.read (m.bytes ++ rest) = some m := by
  cases m with
  | join c =>
    obtain ⟨htype, hc⟩ := read_fillRequest REQ_SERV_JOIN (by decide) c rest
    simp only [S2S.read, S2S.bytes, htype, hc, if_true, Option.map_some]
  | leave c =>
    obtain ⟨htype, hc⟩ := read_fillRequest REQ_SERV_LEAVE (by decide) c rest
    have hne : REQ_SERV_LEAVE ≠ REQ_SERV_JOIN := by decide
    simp only [S2S.read, S2S.bytes, htype, hc, if_neg hne, if_true, Option.map_some]
  | say rss =>
    have htype : ofLeBytes (slice (rss.bytes ++ rest) 0 sizeofInt) = REQ_SERV_SAY := by
      rw [slice_append_left rest (by rw [SayS2S.length_bytes]; decide), SayS2S.reqType_bytes]
    have hread : SayS2S.read (rss.bytes ++ rest) = some rss := by
      rw [SayS2S.read_append rest (Nat.le_of_eq rss.length_bytes.symm), SayS2S.read_bytes]
    have h₁ : REQ_SERV_SAY ≠ REQ_SERV_JOIN := by decide
    have h₂ : REQ_SERV_SAY ≠ REQ_SERV_LEAVE := by decide
    simp only [S2S.read, S2S.bytes, htype, hread, if_neg h₁, if_neg h₂, if_true, Option.map_some]

end RoundTrip

end DuckChat
