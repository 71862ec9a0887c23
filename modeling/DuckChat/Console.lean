import DuckChat.Lib.Run
import DuckChat.Reader

/-!
# The client at its keyboard

A turn of the loop of `send_thread`, from the line that is typed. The line is read over what stands
in `buff`, and the turn is made of what stands there then: the line, or the line and one byte that
was there before. `malloc` leaves in the buffer what it likes.

## Main definitions

* `LineBuffer`, `LineBuffer.read`, `LineBuffer.line` — `buff`, and the string in it
* `Console`, `Console.turn` — `send_thread` at its prompt, and one turn
* `Console.Covers` — the line is decoded as it was typed

## Main results

* `Console.line_eq_iff`, `Console.line_cases`
* `sendThread_eq_decodes` — the turns are those of the loop on the bytes of the input
* `Console.Holds.line_eq` — it is decoded as it was typed if no line is shorter than a rejected one
  before it
-/

set_option autoImplicit false

namespace DuckChat

/-! ### The buffer -/

/-- `buff`. -/
structure LineBuffer where
  bytes : List UInt8
  size : bytes.length = BUFSIZ

/-- A typed line as a string. -/
def Typed.line (l : Typed) : Line where
  bytes := l.bytes
  noNul := l.noNul
  fits := l.fits.trans (by decide)

namespace LineBuffer

/-- After `memset`. -/
def cleared : LineBuffer := ⟨zeroed BUFSIZ, length_zeroed BUFSIZ⟩

variable (b : LineBuffer) (l : Typed)

/-- The buffer when a line has been read into it. -/
def readBytes : List UInt8 :=
  let (buff, charInd, _) := readLoop b.bytes 0 (l.bytes ++ [newline])
  buff.set (charInd + 1) 0

theorem readBytes_eq : b.readBytes l = (put b.bytes 0 l.bytes).set (l.bytes.length + 1) 0 := by
  rw [readBytes, readLoop_append l.noNewline]
  simp only [Nat.zero_add]

def read : LineBuffer where
  bytes := b.readBytes l
  size := by rw [readBytes_eq, List.length_set, length_put, b.size]

theorem lt_size : l.bytes.length < b.bytes.length := by
  rw [b.size]
  exact l.fits.trans (by decide)

/-- The byte behind a line that is read, where its terminator should go. -/
def behind : UInt8 := b.bytes.get ⟨l.bytes.length, b.lt_size l⟩

/-- The line, a byte that was there before, and the terminator. -/
theorem exists_readBytes_eq : ∃ rest, b.readBytes l = l.bytes ++ b.behind l :: 0 :: rest := by
  have hlt := b.lt_size l
  have hlt' : l.bytes.length + 1 < b.bytes.length := by
    have := l.fits
    rw [b.size]
    omega
  refine ⟨b.bytes.drop (l.bytes.length + 2), ?_⟩
  rw [readBytes_eq, put_zero hlt.le, List.drop_eq_getElem_cons hlt,
    List.drop_eq_getElem_cons hlt', List.set_append_right _ _ (by omega), Nat.add_sub_cancel_left,
    List.set_cons_succ, List.set_cons_zero]
  rfl

/-- What stands in the buffer as a C string is the line, or the line and the byte behind it. -/
theorem cstring_readBytes : cstring (b.readBytes l) =
    if b.behind l = 0 then l.bytes else l.bytes ++ [b.behind l] := by
  obtain ⟨rest, hread⟩ := b.exists_readBytes_eq l
  rw [hread]
  split
  · next h0 =>
    rw [h0]
    exact cstring_append l.noNul _
  · next h0 =>
    rw [List.append_cons]
    refine cstring_append ?_ _
    rw [List.mem_append, List.mem_singleton, not_or]
    exact ⟨l.noNul, Ne.symm h0⟩

/-- The string that `decode_input` is given. -/
def line : Line where
  bytes := cstring (b.readBytes l)
  noNul := noNul_cstring _
  fits := by
    have hfits := l.fits
    rw [cstring_readBytes]
    split
    · omega
    · rw [List.length_append, List.length_singleton]
      omega

end LineBuffer

/-! ### A turn -/

/-- `send_thread` at its prompt. -/
structure Console where
  client : Client
  buff : LineBuffer

namespace Console

/-- A client that has started. -/
def start (unset : LineBuffer) : Console := ⟨Client.start, unset⟩

/-- One turn of the loop. Where it is left by `continue`, the buffer stays as it is. -/
def turn (s : Console) (l : Typed) : ClientAct Console :=
  if s.client.logout then pure s
  else do
    let client ← s.client.turn (s.buff.line l)
    pure ⟨client, if skipsClear (s.buff.line l).bytes then s.buff.read l else .cleared⟩

/-- One turn, as a step. -/
def next (s : Console) (l : Typed) : Option Console := (s.turn l).result.toOption

/-- The strings that are decoded, up to the one at which the client stops. -/
def decodes : Console → List Typed → List (List UInt8)
  | _, [] => []
  | s, l :: ls =>
      (s.buff.line l).bytes :: match s.next l with
        | none => []
        | some s => if s.client.logout then [] else s.decodes ls

/-- Behind the line there is a terminator already. -/
def Covers (s : Console) (l : Typed) : Prop := s.buff.behind l = 0

instance decidableCovers (s : Console) (l : Typed) : Decidable (s.Covers l) :=
  inferInstanceAs (Decidable (s.buff.behind l = 0))

section Rules

variable {s s' : Console} {c : Client} {l : Typed} {ls : List Typed}

/-- **The line is decoded as it was typed** exactly where the byte behind it is a terminator. -/
theorem line_eq_iff : s.buff.line l = l.line ↔ s.Covers l := by
  have hbytes : s.buff.line l = l.line ↔ cstring (s.buff.readBytes l) = l.bytes :=
    ⟨congrArg CStr.bytes, fun h => CStr.ext h⟩
  rw [hbytes, Covers, LineBuffer.cstring_readBytes]
  split
  · next h0 => exact iff_of_true rfl h0
  · next h0 => exact iff_of_false (by simp) h0

/-- It is one behind every line if the buffer has been cleared. -/
theorem covers_of_cleared (h : s.buff = .cleared) : s.Covers l := by
  rw [Covers, h, LineBuffer.behind, List.get_eq_getElem]
  exact List.getElem_replicate _

/-- Otherwise that byte is taken for its last. -/
theorem line_cases (s : Console) (l : Typed) :
    (s.buff.line l).bytes = l.bytes ∨ ∃ b, (s.buff.line l).bytes = l.bytes ++ [b] := by
  have hbytes := s.buff.cstring_readBytes l
  split at hbytes
  · exact Or.inl hbytes
  · exact Or.inr ⟨_, hbytes⟩

theorem turn_eq (hl : s.client.logout = false) : s.turn l =
    s.client.turn (s.buff.line l) >>= fun client =>
      pure ⟨client, if skipsClear (s.buff.line l).bytes then s.buff.read l else .cleared⟩ := by
  rw [turn, if_neg (ne_true_of_eq_false hl)]

theorem turn_of_covers (hl : s.client.logout = false) (hc : s.Covers l) : s.turn l =
    s.client.turn l.line >>= fun client =>
      pure ⟨client, if skipsClear l.bytes then s.buff.read l else .cleared⟩ := by
  rw [turn_eq hl, line_eq_iff.mpr hc]
  rfl

/-- What is sent in a turn, and what becomes of the client, is up to the string in the buffer. -/
theorem turn_out : (s.turn l).out = (s.client.turn (s.buff.line l)).out := by
  by_cases hl : s.client.logout = true
  · rw [turn, if_pos hl, Client.turn, if_pos hl]
    rfl
  · rw [turn_eq (Bool.eq_false_of_not_eq_true hl)]
    cases s.client.turn (s.buff.line l) with
    | mk out r => cases r <;> simp

theorem turn_client (h : (s.turn l).result = .ok s') :
    (s.client.turn (s.buff.line l)).result = .ok s'.client := by
  by_cases hl : s.client.logout = true
  · rw [turn, if_pos hl] at h
    cases h
    rw [Client.turn, if_pos hl]
    rfl
  · rw [turn_eq (Bool.eq_false_of_not_eq_true hl)] at h
    obtain ⟨c, hc, heq⟩ := Emit.bind_eq_ok_iff.mp h
    cases heq
    exact hc

theorem next_eq_some_iff : s.next l = some s' ↔ (s.turn l).result = .ok s' := by
  rw [next]
  cases (s.turn l).result with
  | error f => simp [Except.toOption]
  | ok t => simp [Except.toOption]

/-- **The turns are those of the loop** on the bytes of the input. -/
theorem sendThread_eq_decodes (s : Console) (ls : List Typed) (hl : s.client.logout = false) :
    sendThread ls.length s.client s.buff.bytes (stdin ls) = s.decodes ls := by
  induction ls generalizing s with
  | nil => rfl
  | cons l ls ih =>
    have hread : readLoop s.buff.bytes 0 (stdin (l :: ls)) =
        (put s.buff.bytes 0 l.bytes, l.bytes.length, stdin ls) := by
      rw [stdin_cons, readLoop_append l.noNewline, Nat.zero_add]
    have hline : (s.buff.line l).bytes =
        cstring ((put s.buff.bytes 0 l.bytes).set (l.bytes.length + 1) 0) :=
      congrArg cstring (s.buff.readBytes_eq l)
    have hgoes : s.client.goesOn (s.buff.line l).bytes =
        ((s.client.turn (s.buff.line l)).result.toOption).bind fun c =>
          if c.logout then none else some c := by
      rw [Client.goesOn, copyTo_bytes]
      rfl
    rw [List.length_cons, sendThread, hread, decodes]
    simp only
    rw [← hline, hgoes, next, turn_eq hl]
    refine congrArg _ ?_
    cases s.client.turn (s.buff.line l) with
    | mk out r =>
      cases r with
      | error f => rfl
      | ok c =>
        by_cases hc : c.logout = true
        · simp [Except.toOption, hc]
        · have hc := Bool.eq_false_of_not_eq_true hc
          simp only [Except.toOption, Emit.mk_ok_bind, Emit.pure_eq, Option.bind_some, hc,
            Bool.false_eq_true, if_false]
          rw [← ih _ hc]
          congr 1
          rw [← s.buff.readBytes_eq l]
          split <;> rfl

end Rules

/-! ### Lines that cover each other -/

/-- What a sequence of lines leaves in a buffer that was clear. -/
def kept (ls : List Typed) : List UInt8 :=
  match ls.getLast? with
  | some l => if skipsClear l.bytes then l.bytes else []
  | none => []

/-- In the buffer there is what the lines have left, and nothing behind it. -/
def Holds (s : Console) (ls : List Typed) : Prop := s.buff.bytes = holding (kept ls)

section Covering

variable {s s' : Console} {l : Typed} {ls : List Typed}

theorem holds_start : (start .cleared).Holds [] := rfl

/-- A line that is not shorter than a rejected one before it is decoded as it was typed. -/
theorem Holds.line_eq (h : s.Holds ls) (hls : (ls ++ [l]).IsChain Overwrites) :
    s.buff.line l = l.line ∧ s.buff.readBytes l = holding l.bytes := by
  have hle : (kept ls).length ≤ l.bytes.length := by
    rw [kept]
    split
    · next r hr =>
      have hover : Overwrites r l := (List.isChain_append.mp hls).2.2 r hr l rfl
      split
      · next hk => exact hover hk
      · exact Nat.zero_le _
    · exact Nat.zero_le _
  have hread : s.buff.readBytes l = holding l.bytes := by
    rw [LineBuffer.readBytes_eq, h, ← readOver_of_le hle, readOver]
  have hlt : l.bytes.length < BUFSIZ := l.fits.trans (by decide)
  refine ⟨CStr.ext ?_, hread⟩
  show cstring (s.buff.readBytes l) = l.bytes
  rw [hread, cstring_holding l.noNul hlt]

theorem Holds.turn (h : s.Holds ls) (hls : (ls ++ [l]).IsChain Overwrites)
    (hl : s.client.logout = false) (hst : (s.turn l).result = .ok s') : s'.Holds (ls ++ [l]) := by
  obtain ⟨hline, hread⟩ := h.line_eq hls
  rw [turn_eq hl] at hst
  obtain ⟨c, -, heq⟩ := Emit.bind_eq_ok_iff.mp hst
  cases heq
  rw [Holds, kept, List.getLast?_concat, hline]
  show (if skipsClear l.bytes then s.buff.read l else LineBuffer.cleared).bytes = _
  simp only
  split
  · exact hread
  · rfl

end Covering

end Console

end DuckChat
