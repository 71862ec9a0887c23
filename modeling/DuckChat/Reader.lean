import DuckChat.Client
import DuckChat.Layout

/-!
# The line in the buffer

`send_thread` reads what is typed into `buff`, byte by byte, and stores a terminator. It stores it
one place too far, and relies on the buffer having been cleared. Some commands go back to the loop
by `continue` without clearing it; then the next line has to cover what they left.

## Main definitions

* `readLoop`, `sendThread` — the loop, byte by byte
* `Client.goesOn`, `skipsClear` — how a turn ends
* `Typed`, `stdin` — lines, and the input they make
* `linesRead` — the lines up to the one at which the client stops

## Main results

* `sendThread_eq_iff` — the loop on a buffer that holds a string
* `decoded_iff_overwrites` — the string that is decoded is the line that was typed exactly where no
  line is shorter than a rejected one before it
-/

set_option autoImplicit false

namespace DuckChat

/-! ### The loop -/

def newline : UInt8 := 10

/-- The inner loop: bytes up to a newline go to the buffer from `char_ind` on. It returns the
buffer, the index, and the input that is left. -/
def readLoop : List UInt8 → ℕ → List UInt8 → List UInt8 × ℕ × List UInt8
  | buff, charInd, [] => (buff, charInd, [])
  | buff, charInd, c :: input =>
      if c = newline then (buff, charInd, input)
      else readLoop (buff.set charInd c) (charInd + 1) input

/-- The client goes on to the next line: the `switch` ends well, and it was no `/exit`. -/
def Client.goesOn (c : Client) (buff : List UInt8) : Option Client := do
  let line ← (copyTo BUFSIZ buff).toOption
  let c ← (c.turn line).result.toOption
  if c.logout then none else some c

/-- Without an argument `case REQ_LEAVE` and `case REQ_SWITCH` leave the `switch` by `continue`. -/
def skipsClear (buff : List UInt8) : Bool :=
  decodeInput buff ∈ [InputKind.leave, .switch] ∧ (getCommandArg buff).getD [] = []

/-- The strings that `n` turns of the loop pass on, up to the one that ends it. -/
def sendThread : ℕ → Client → List UInt8 → List UInt8 → List (List UInt8)
  | 0, _, _, _ => []
  | n + 1, c, buff, input =>
      let (buff, charInd, input) := readLoop buff 0 input
      let buff := buff.set (charInd + 1) 0
      let str := cstring buff
      str :: match c.goesOn str with
        | none => []
        | some c => sendThread n c (if skipsClear str then buff else zeroed BUFSIZ) input

/-! ### What is typed -/

/-- A line that leaves room for its terminator where the loop stores it. -/
structure Typed where
  bytes : List UInt8
  noNul : 0 ∉ bytes
  noNewline : newline ∉ bytes
  fits : bytes.length < BUFSIZ - 2

/-- Lines as they are typed. -/
def stdin (ls : List Typed) : List UInt8 := ls.flatMap fun l => l.bytes ++ [newline]

/-- The lines that are read: none after the one at which the client stops. -/
def linesRead : Client → List Typed → List Typed
  | _, [] => []
  | c, l :: ls =>
      l :: match c.goesOn l.bytes with
        | none => []
        | some c => linesRead c ls

/-- A line that comes after one which was rejected is no shorter. -/
def Overwrites (r l : Typed) : Prop :=
  skipsClear r.bytes = true → r.bytes.length ≤ l.bytes.length

instance decidableOverwrites (r l : Typed) : Decidable (Overwrites r l) :=
  inferInstanceAs (Decidable (skipsClear r.bytes = true → r.bytes.length ≤ l.bytes.length))

section Reading

variable {c : Client} {buff bytes rest input pend : List UInt8} {i : ℕ} {l : Typed}
  {ls : List Typed}

/-- **The inner loop** stores the line. -/
theorem readLoop_append (h : newline ∉ bytes) :
    readLoop buff i (bytes ++ newline :: input) = (put buff i bytes, i + bytes.length, input) := by
  induction bytes generalizing buff i with
  | nil => rw [List.nil_append, readLoop, if_pos rfl, put, List.length_nil, Nat.add_zero]
  | cons b bs ih =>
    rw [List.mem_cons, not_or] at h
    rw [List.cons_append, readLoop, if_neg (Ne.symm h.1), ih h.2, put, List.length_cons,
      Nat.add_right_comm, Nat.add_assoc]

theorem stdin_cons (l : Typed) (ls : List Typed) :
    stdin (l :: ls) = l.bytes ++ newline :: stdin ls := by
  rw [stdin, List.flatMap_cons, List.append_assoc]
  rfl

/-- A buffer that holds a string, and nothing behind it. -/
def holding (pend : List UInt8) : List UInt8 := pend ++ zeroed (BUFSIZ - pend.length)

/-- What stands in the buffer when a line has been read over a string. -/
def readOver (pend : List UInt8) (l : Typed) : List UInt8 :=
  (put (holding pend) 0 l.bytes).set (l.bytes.length + 1) 0

theorem length_holding (h : pend.length ≤ BUFSIZ) : (holding pend).length = BUFSIZ := by
  rw [holding, List.length_append, length_zeroed]
  omega

/-- A line that covers the string is all that is left. -/
theorem readOver_of_le (h : pend.length ≤ l.bytes.length) : readOver pend l = holding l.bytes := by
  have hl := l.fits
  have hdrop : (holding pend).drop l.bytes.length = zeroed (BUFSIZ - l.bytes.length) := by
    rw [holding, List.drop_append, List.drop_eq_nil_of_le h, List.nil_append, zeroed,
      List.drop_replicate, zeroed]
    congr 1
    omega
  rw [readOver, put_zero (by rw [length_holding (by omega)]; omega), hdrop, holding,
    List.set_append_right _ _ (by omega)]
  congr 1
  -- a terminator among terminators
  rw [zeroed, List.set_replicate_self]

/-- A shorter line keeps a byte of the string at its end. -/
theorem cstring_readOver_ne (h : l.bytes.length < pend.length) (hp : 0 ∉ pend)
    (hfits : pend.length ≤ BUFSIZ) : cstring (readOver pend l) ≠ l.bytes := by
  have hdrop : (holding pend).drop l.bytes.length =
      pend[l.bytes.length] :: (holding pend).drop (l.bytes.length + 1) := by
    rw [List.drop_eq_getElem_cons (by rw [length_holding hfits]; omega)]
    congr 1
    exact List.getElem_append_left h
  have hne : pend[l.bytes.length] ≠ 0 := fun h0 => hp (h0 ▸ List.getElem_mem h)
  rw [readOver, put_zero (by rw [length_holding hfits]; omega), hdrop,
    List.set_append_right _ _ (by omega), Nat.add_sub_cancel_left, List.set_cons_succ]
  have hall : ∀ b ∈ l.bytes, (b != 0) = true := fun b hb =>
    bne_iff_ne.mpr fun h0 => l.noNul (h0 ▸ hb)
  have hkept : (pend[l.bytes.length] != 0) = true := bne_iff_ne.mpr hne
  intro heq
  rw [cstring, List.takeWhile_append_of_pos hall, List.takeWhile_cons, if_pos hkept] at heq
  have hlen := congrArg List.length heq
  rw [List.length_append, List.length_cons] at hlen
  omega

theorem cstring_holding (h : 0 ∉ pend) (hfits : pend.length < BUFSIZ) :
    cstring (holding pend) = pend := by
  obtain ⟨n, hn⟩ : ∃ n, BUFSIZ - pend.length = n + 1 := ⟨BUFSIZ - pend.length - 1, by omega⟩
  rw [holding, hn, zeroed, List.replicate_succ, cstring_append h]

/-- One turn of the loop. -/
theorem sendThread_succ (n : ℕ) :
    sendThread (n + 1) c (holding pend) (stdin (l :: ls)) =
      cstring (readOver pend l) :: match c.goesOn (cstring (readOver pend l)) with
        | none => []
        | some c => sendThread n c
            (if skipsClear (cstring (readOver pend l)) then readOver pend l else holding [])
            (stdin ls) := by
  rw [sendThread, stdin_cons, readLoop_append l.noNewline]
  simp only [Nat.zero_add]
  rfl

theorem head?_linesRead (c : Client) (ls : List Typed) : (linesRead c ls).head? = ls.head? := by
  cases ls with
  | nil => rfl
  | cons l ls => rfl

/-- The step lemma: a line that covers what the buffer holds is read as it was typed, and leaves
itself behind if it is rejected. -/
theorem sendThread_eq_iff (hp : 0 ∉ pend) (hfits : pend.length < BUFSIZ - 2) :
    sendThread ls.length c (holding pend) (stdin ls) = (linesRead c ls).map Typed.bytes ↔
      (∀ l ∈ ls.head?, pend.length ≤ l.bytes.length) ∧ (linesRead c ls).IsChain Overwrites := by
  induction ls generalizing c pend with
  | nil => simp [sendThread, linesRead]
  | cons l ls ih =>
    have hl := l.fits
    rw [List.length_cons, sendThread_succ, linesRead, List.map_cons, List.head?_cons,
      List.isChain_cons]
    by_cases hle : pend.length ≤ l.bytes.length
    · rw [readOver_of_le hle, cstring_holding l.noNul (by omega), List.cons_inj_right]
      have hcovers : ∀ l' ∈ some l, pend.length ≤ l'.bytes.length := by simpa using hle
      rw [and_iff_right hcovers]
      cases hg : c.goesOn l.bytes with
      | none => simp
      | some c' =>
        by_cases hk : skipsClear l.bytes = true
        · have hkept := ih (c := c') l.noNul hl
          simpa [Overwrites, hk, head?_linesRead] using hkept
        · have hnil := ih (c := c') List.not_mem_nil (Nat.zero_lt_of_lt hl)
          simpa [Overwrites, hk] using hnil
    · have hne := cstring_readOver_ne (l := l) (Nat.lt_of_not_le hle) hp (by omega)
      constructor
      · intro heq
        exact absurd (List.cons_eq_cons.mp heq).1 hne
      · rintro ⟨hcovers, -⟩
        exact absurd (hcovers l rfl) hle

end Reading

/-- **A line is decoded as it was typed** in every sequence of lines in which none comes after a
longer one that was rejected, and in no other. -/
theorem decoded_iff_overwrites (ls : List Typed) :
    sendThread ls.length .start (zeroed BUFSIZ) (stdin ls) =
        (linesRead .start ls).map Typed.bytes ↔
      (linesRead .start ls).IsChain Overwrites := by
  have hstart : zeroed BUFSIZ = holding [] := rfl
  rw [hstart, sendThread_eq_iff List.not_mem_nil (by decide)]
  simp

namespace Three

/-- A switch without its argument, and a short line after it. -/
def hasty : List Typed :=
  [⟨ascii "/switch", by decide, by decide, by decide⟩,
    ⟨ascii "hi", by decide, by decide, by decide⟩]

end Three

open Three in
/-- After `/switch` the line `hi` is decoded as `hiw`. -/
theorem not_decoded_hasty :
    ¬ ∀ ls : List Typed, sendThread ls.length .start (zeroed BUFSIZ) (stdin ls) =
        (linesRead .start ls).map Typed.bytes := by
  intro h
  have hstart : zeroed BUFSIZ = holding [] := rfl
  have hhasty := h hasty
  rw [hstart, sendThread_eq_iff List.not_mem_nil (by decide)] at hhasty
  revert hhasty
  decide

end DuckChat
