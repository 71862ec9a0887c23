import DuckChat.Wire
import DuckChat.Lib.Slots

/-!
# What a client does with a reply (`recv_thread`)

The thread clears its buffer, receives a datagram into it and casts it to the structure that
`txt_type` asks for. It prints fields of the buffer, whole, and the two replies with an array carry
the number of its slots. That number is taken as it comes: an `int`, compared with nothing.

## Main definitions

* `recvBuff` — the buffer after a datagram
* `recvThread` — what is read and printed, in order
* `readList`, `readWho` — the strings in the fields that are printed

## Main results

* `readsInside_iff` — the replies for which every read stays in the buffer
-/

set_option autoImplicit false

namespace DuckChat

/-- A field of the buffer. -/
structure Field where
  off : ℕ
  size : ℕ
deriving DecidableEq

/-- What the thread does: it reads a number of the buffer, or prints a literal or a field. -/
inductive Printing where
  | number (f : Field)
  | literal (bytes : List UInt8)
  | field (f : Field)
deriving DecidableEq

/-- The buffer, cleared, and what it takes of a datagram. -/
def recvBuff (d : List UInt8) : List UInt8 := put (zeroed BUFSIZ) 0 d

/-! ### The structures -/

def offTxtCount : ℕ := sizeofInt
def offTxtWhoChannel : ℕ := sizeofInt + sizeofInt
def offTxtUsers : ℕ := offTxtWhoChannel + CHANNEL_MAX
def offTxtError : ℕ := sizeofInt

/-- `t->txt_type`. -/
def txtType (buff : List UInt8) : ℕ := ofLeBytes (slice buff 0 sizeofInt)

/-- `tl->txt_nchannels`, and `tl->txt_nusernames`, at the same place. -/
def txtCount (buff : List UInt8) : ℤ := toInt (ofLeBytes (slice buff offTxtCount sizeofInt))

/-- The slots of an array that a loop up to `n` visits. -/
def slotFields (base w : ℕ) (n : ℤ) : List Field :=
  (List.range n.toNat).map fun i => ⟨base + w * i, w⟩

/-- `(tl->txt_channels + i)->ch_channel`. -/
def channelFields (n : ℤ) : List Field := slotFields offTxtChannels CHANNEL_MAX n

/-- `(tl->txt_users + i)->us_username`. -/
def userFields (n : ℤ) : List Field := slotFields offTxtUsers USERNAME_MAX n

/-! ### Printing -/

/-- `clear_stdout`. -/
def clearStdout (clearChars : ℕ) : List Printing := List.replicate clearChars (.literal [8])

/-- `say_text_output`, on fields of the buffer. -/
def sayTextOutput (channel username text : Field) : List Printing :=
  [.literal (ascii "["), .field channel, .literal (ascii "]"), .literal (ascii "["),
    .field username, .literal (ascii "]: "), .field text]

/-- One line for each field of an array. -/
def printLines (fs : List Field) : List Printing :=
  fs.flatMap fun f => [.literal (ascii "\n\t"), .field f]

/-- `print_channel_list`. The terminator of the literal is printed with it. -/
def printChannelList (buff : List UInt8) : List Printing :=
  .literal (ascii "Existing Channels:" ++ [0]) :: .number ⟨offTxtCount, sizeofInt⟩ ::
    printLines (channelFields (txtCount buff))

/-- `print_user_list`. -/
def printUserList (buff : List UInt8) : List Printing :=
  .literal (ascii "All users in " ++ [0]) :: .field ⟨offTxtWhoChannel, CHANNEL_MAX⟩ ::
    .number ⟨offTxtCount, sizeofInt⟩ :: printLines (userFields (txtCount buff))

/-- The `switch` on `t->txt_type`. -/
def printText (buff : List UInt8) : List Printing :=
  if txtType buff = TXT_SAY then
    sayTextOutput ⟨offTxtChannel, CHANNEL_MAX⟩ ⟨offTxtUsername, USERNAME_MAX⟩ ⟨offTxtText, SAY_MAX⟩
  else if txtType buff = TXT_LIST then printChannelList buff
  else if txtType buff = TXT_WHO then printUserList buff
  else if txtType buff = TXT_ERROR then [.field ⟨offTxtError, SAY_MAX⟩]
  else [.literal (ascii "Invalid request: ")]

/-- What `recv_thread` does with a datagram in its buffer. -/
def recvThread (buff : List UInt8) : List Printing :=
  clearStdout 50 ++ .number ⟨0, sizeofInt⟩ :: printText buff ++ [.literal (ascii "\n> ")]

/-- The bytes of the buffer that are read. -/
def Printing.reads : Printing → Option Field
  | .number f => some f
  | .literal _ => none
  | .field f => some f

/-- The field is in the buffer. -/
def Field.Inside (f : Field) : Prop := f.off + f.size ≤ BUFSIZ

instance decidableFieldInside (f : Field) : Decidable f.Inside :=
  inferInstanceAs (Decidable (f.off + f.size ≤ BUFSIZ))

/-- All that is read is in the buffer. -/
def ReadsInside (ps : List Printing) : Prop := ∀ p ∈ ps, ∀ f ∈ p.reads, f.Inside

/-! ### The strings -/

/-- The string at the start of a field. -/
def Field.str (buff : List UInt8) (f : Field) : List UInt8 := cstring (slice buff f.off f.size)

/-- The channels of a list. -/
def readList (buff : List UInt8) : List (List UInt8) :=
  (channelFields (txtCount buff)).map (Field.str buff)

/-- The channel of a who, and its users. -/
def readWho (buff : List UInt8) : List UInt8 × List (List UInt8) :=
  (Field.str buff ⟨offTxtWhoChannel, CHANNEL_MAX⟩,
    (userFields (txtCount buff)).map (Field.str buff))

section Rules

variable {buff d : List UInt8} {base w : ℕ} {n : ℤ} {fs : List Field} {ps qs : List Printing}

theorem readList_eq (buff : List UInt8) :
    readList buff = readSlots offTxtChannels CHANNEL_MAX (txtCount buff).toNat buff := by
  rw [readList, channelFields, slotFields, List.map_map]
  rfl

theorem readWho_eq (buff : List UInt8) :
    readWho buff = (cstring (slice buff offTxtWhoChannel CHANNEL_MAX),
      readSlots offTxtUsers USERNAME_MAX (txtCount buff).toNat buff) := by
  rw [readWho, userFields, slotFields, List.map_map]
  rfl

/-- The buffer holds the datagram, and nothing behind it. -/
theorem recvBuff_eq (h : d.length ≤ BUFSIZ) : recvBuff d = d ++ zeroed (BUFSIZ - d.length) := by
  rw [recvBuff, put_zero (by rwa [length_zeroed]), zeroed, List.drop_replicate, zeroed]

theorem slice_recvBuff {off k : ℕ} (h : d.length ≤ BUFSIZ) (hk : off + k ≤ d.length) :
    slice (recvBuff d) off k = slice d off k := by
  rw [recvBuff_eq h, slice_append_left _ hk]

/-! ### Reads -/

@[simp] theorem readsInside_nil : ReadsInside [] := fun _ hp => absurd hp List.not_mem_nil

@[simp] theorem readsInside_append_iff :
    ReadsInside (ps ++ qs) ↔ ReadsInside ps ∧ ReadsInside qs := List.forall_mem_append

@[simp] theorem readsInside_number_iff {f : Field} :
    ReadsInside (.number f :: ps) ↔ f.Inside ∧ ReadsInside ps := by
  rw [ReadsInside, List.forall_mem_cons]
  simp [Printing.reads, ReadsInside]

@[simp] theorem readsInside_field_iff {f : Field} :
    ReadsInside (.field f :: ps) ↔ f.Inside ∧ ReadsInside ps := by
  rw [ReadsInside, List.forall_mem_cons]
  simp [Printing.reads, ReadsInside]

@[simp] theorem readsInside_literal_iff {bytes : List UInt8} :
    ReadsInside (.literal bytes :: ps) ↔ ReadsInside ps := by
  rw [ReadsInside, List.forall_mem_cons]
  simp [Printing.reads, ReadsInside]

theorem readsInside_clearStdout (k : ℕ) : ReadsInside (clearStdout k) := by
  intro p hp f hf
  rw [List.eq_of_mem_replicate hp] at hf
  cases hf

theorem readsInside_printLines_iff : ReadsInside (printLines fs) ↔ ∀ f ∈ fs, f.Inside := by
  induction fs with
  | nil => simp [printLines]
  | cons f fs ih =>
    have hcons : printLines (f :: fs) = .literal (ascii "\n\t") :: .field f :: printLines fs := rfl
    rw [hcons, readsInside_literal_iff, readsInside_field_iff, ih, List.forall_mem_cons]

/-- **The last slot decides** whether a loop over an array stays in the buffer. -/
theorem inside_slotFields_iff :
    (∀ f ∈ slotFields base w n, f.Inside) ↔ (0 < n → base + w * n ≤ BUFSIZ) := by
  simp only [slotFields, List.forall_mem_map, List.mem_range, Field.Inside]
  constructor
  · intro h hn
    obtain ⟨k, rfl⟩ : ∃ k : ℕ, n = k + 1 := ⟨(n - 1).toNat, by omega⟩
    have hlast := h k (by omega)
    rw [Int.mul_add, Int.mul_one]
    exact_mod_cast (by omega : base + (w * k + w) ≤ BUFSIZ)
  · intro h i hi
    obtain ⟨k, rfl⟩ : ∃ k : ℕ, n = k := ⟨n.toNat, by omega⟩
    have hle : base + w * k ≤ BUFSIZ := by exact_mod_cast h (by omega)
    have hslot : w * (i + 1) ≤ w * k := Nat.mul_le_mul_left _ (by omega)
    rw [Nat.mul_add, Nat.mul_one] at hslot
    omega

theorem readsInside_printChannelList_iff :
    ReadsInside (printChannelList buff) ↔ txtCount buff ≤ 255 := by
  have hcount : Field.Inside ⟨offTxtCount, sizeofInt⟩ := by decide
  rw [printChannelList, readsInside_literal_iff, readsInside_number_iff, and_iff_right hcount,
    readsInside_printLines_iff, channelFields, inside_slotFields_iff]
  show (0 < txtCount buff → 8 + 32 * txtCount buff ≤ 8192) ↔ txtCount buff ≤ 255
  omega

theorem readsInside_printUserList_iff :
    ReadsInside (printUserList buff) ↔ txtCount buff ≤ 254 := by
  have hcount : Field.Inside ⟨offTxtCount, sizeofInt⟩ := by decide
  have hchannel : Field.Inside ⟨offTxtWhoChannel, CHANNEL_MAX⟩ := by decide
  rw [printUserList, readsInside_literal_iff, readsInside_field_iff, and_iff_right hchannel,
    readsInside_number_iff, and_iff_right hcount, readsInside_printLines_iff, userFields,
    inside_slotFields_iff]
  show (0 < txtCount buff → 40 + 32 * txtCount buff ≤ 8192) ↔ txtCount buff ≤ 254
  omega

/-- Only the two arrays can lead out of the buffer. -/
theorem readsInside_recvThread_iff :
    ReadsInside (recvThread buff) ↔
      (txtType buff = TXT_LIST → ReadsInside (printChannelList buff)) ∧
        (txtType buff = TXT_WHO → ReadsInside (printUserList buff)) := by
  have htype : Field.Inside ⟨0, sizeofInt⟩ := by decide
  have hprint : ReadsInside (recvThread buff) ↔ ReadsInside (printText buff) := by
    simp [recvThread, readsInside_clearStdout, htype]
  rw [hprint, printText]
  by_cases hsay : txtType buff = TXT_SAY
  · have hin : ReadsInside (sayTextOutput ⟨offTxtChannel, CHANNEL_MAX⟩
        ⟨offTxtUsername, USERNAME_MAX⟩ ⟨offTxtText, SAY_MAX⟩) := by
      simp only [sayTextOutput, readsInside_literal_iff, readsInside_field_iff, readsInside_nil,
        and_true]
      decide
    rw [if_pos hsay, hsay]
    exact iff_of_true hin ⟨fun h => absurd h (by decide), fun h => absurd h (by decide)⟩
  rw [if_neg hsay]
  by_cases hlist : txtType buff = TXT_LIST
  · have hne : TXT_LIST ≠ TXT_WHO := by decide
    rw [if_pos hlist, hlist]
    simp [hne]
  rw [if_neg hlist]
  by_cases hwho : txtType buff = TXT_WHO
  · have hne : TXT_WHO ≠ TXT_LIST := by decide
    rw [if_pos hwho, hwho]
    simp [hne]
  · have herror : Field.Inside ⟨offTxtError, SAY_MAX⟩ := by decide
    rw [if_neg hwho]
    refine iff_of_true ?_ ⟨fun h => absurd h hlist, fun h => absurd h hwho⟩
    split <;> simp [herror]

end Rules

/-- **A client reads inside its buffer** on the replies whose array ends there, and on no others:
a list has at most 255 channels, and a who at most 254 users. -/
theorem readsInside_iff (d : List UInt8) :
    ReadsInside (recvThread (recvBuff d)) ↔
      (txtType (recvBuff d) = TXT_LIST → txtCount (recvBuff d) ≤ 255) ∧
        (txtType (recvBuff d) = TXT_WHO → txtCount (recvBuff d) ≤ 254) := by
  rw [readsInside_recvThread_iff, readsInside_printChannelList_iff, readsInside_printUserList_iff]

namespace Three

/-- A list of 256 channels that ends behind their number. -/
def bigList : List UInt8 := leBytes sizeofInt TXT_LIST ++ leBytes sizeofInt 256

end Three

open Three in
/-- The last of the 256 slots that are printed ends eight bytes behind the buffer. -/
theorem not_readsInside : ¬ ∀ d : List UInt8, ReadsInside (recvThread (recvBuff d)) := by
  intro h
  have htype : txtType (recvBuff bigList) = TXT_LIST := by
    rw [txtType, slice_recvBuff (by decide) (by decide)]
    decide
  have hcount : txtCount (recvBuff bigList) = 256 := by
    rw [txtCount, slice_recvBuff (by decide) (by decide)]
    decide
  have hlist := (readsInside_recvThread_iff.mp (h bigList)).1 htype
  rw [readsInside_printChannelList_iff, hcount] at hlist
  exact absurd hlist (by decide)

end DuckChat
