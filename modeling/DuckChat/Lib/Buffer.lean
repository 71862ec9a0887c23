import Mathlib.Data.Nat.Digits.Defs
import Mathlib.Data.List.Basic
import Mathlib.Tactic.Common

/-!
# Buffers of bytes

What C does to a `struct` that it fills and sends, on a list of bytes: a store at an offset, the
copy of a string with its terminator, a little-endian number, and the reading of each. A store
past the end of a buffer is lost, and the rules say where a store fits.

## Main definitions

* `put`, `slice` — store bytes at an offset, read some
* `leBytes`, `ofLeBytes`, `putNat` — a number in a given number of bytes
* `strcpy`, `cstring` — a string up to its terminator

## Main results

* `slice_put_self`, `slice_put_of_disjoint` — reading after a store
* `put_comm` — stores to disjoint places commute
* `ofLeBytes_slice_putNat`, `cstring_slice_strcpy` — what was stored is what is read
* `leBytes_ofLeBytes` — and what was read is what is stored
-/

set_option autoImplicit false

namespace DuckChat

/-- Store bytes from an offset on, one after the other. -/
def put (buf : List UInt8) (off : ℕ) : List UInt8 → List UInt8
  | [] => buf
  | b :: bs => put (buf.set off b) (off + 1) bs

/-- The bytes from an offset on, `n` of them. -/
def slice (buf : List UInt8) (off n : ℕ) : List UInt8 := (buf.drop off).take n

/-- The lowest `n` bytes of a number, the lowest first. -/
def leBytes : ℕ → ℕ → List UInt8
  | 0, _ => []
  | n + 1, x => UInt8.ofNat (x % 256) :: leBytes n (x / 256)

/-- The number that bytes stand for, the lowest first. -/
def ofLeBytes (bs : List UInt8) : ℕ := Nat.ofDigits 256 (bs.map UInt8.toNat)

/-- Store a number at an offset, in `n` bytes. -/
def putNat (buf : List UInt8) (off n x : ℕ) : List UInt8 := put buf off (leBytes n x)

/-- Copy a string to an offset, with its terminator. -/
def strcpy (buf : List UInt8) (off : ℕ) (str : List UInt8) : List UInt8 := put buf off (str ++ [0])

/-- The string at the start of some bytes, up to the first terminator. -/
def cstring (bs : List UInt8) : List UInt8 := bs.takeWhile fun b => b != 0

section Stores

variable {buf buf' bs bs' : List UInt8} {off off' i k n : ℕ}

@[simp] theorem length_put : (put buf off bs).length = buf.length := by
  induction bs generalizing buf off with
  | nil => rfl
  | cons b bs ih => rw [put, ih, List.length_set]

/-- **A store**: inside its range the buffer holds the new bytes, outside the old ones. -/
theorem getElem?_put :
    (put buf off bs)[k]? =
      if off ≤ k ∧ k < off + bs.length ∧ k < buf.length then bs[k - off]? else buf[k]? := by
  induction bs generalizing buf off with
  | nil =>
    rw [if_neg (by rw [List.length_nil]; omega)]
    rfl
  | cons b bs ih =>
    rw [put, ih, List.length_set, List.length_cons]
    by_cases hin : off + 1 ≤ k ∧ k < off + 1 + bs.length ∧ k < buf.length
    · have hk : k - off = k - (off + 1) + 1 := by omega
      rw [if_pos hin, if_pos (by omega), hk, List.getElem?_cons_succ]
    · rw [if_neg hin]
      by_cases hk : off = k ∧ k < buf.length
      · obtain ⟨rfl, hlt⟩ := hk
        rw [if_pos (by omega), Nat.sub_self, List.getElem?_set_self hlt]
        rfl
      · rw [if_neg (by omega)]
        by_cases hoff : off = k
        · have hge : buf.length ≤ k := by omega
          rw [List.getElem?_eq_none (by rwa [List.length_set]), List.getElem?_eq_none hge]
        · rw [List.getElem?_set_ne hoff]

theorem getElem?_put_of_outside (h : k < off ∨ off + bs.length ≤ k) :
    (put buf off bs)[k]? = buf[k]? := by
  rw [getElem?_put, if_neg (by omega)]

/-- Buffers that agree up to a store agree up to its end, when they make it. -/
theorem put_agree (off : ℕ) (bs : List UInt8) (hlen : buf.length = buf'.length)
    (h : ∀ k < off, buf[k]? = buf'[k]?) :
    ∀ k < off + bs.length, (put buf off bs)[k]? = (put buf' off bs)[k]? := by
  intro k hk
  rw [getElem?_put, getElem?_put, ← hlen]
  by_cases hoff : off ≤ k
  · split
    · rfl
    · rw [List.getElem?_eq_none (by omega), List.getElem?_eq_none (by omega)]
  · rw [if_neg (by omega), if_neg (by omega), h k (by omega)]

/-- A store at the front. -/
theorem put_zero (h : bs.length ≤ buf.length) : put buf 0 bs = bs ++ buf.drop bs.length := by
  refine List.ext_getElem? fun k => ?_
  rw [getElem?_put]
  by_cases hk : k < bs.length
  · rw [if_pos (by omega), List.getElem?_append_left hk, Nat.sub_zero]
  · rw [if_neg (by omega), List.getElem?_append_right (by omega), List.getElem?_drop,
      Nat.add_sub_cancel' (by omega)]

/-- **Stores to disjoint places commute.** -/
theorem put_comm (h : off + bs.length ≤ off' ∨ off' + bs'.length ≤ off) :
    put (put buf off bs) off' bs' = put (put buf off' bs') off bs := by
  refine List.ext_getElem? fun k => ?_
  simp only [getElem?_put, length_put]
  by_cases h₁ : off ≤ k ∧ k < off + bs.length ∧ k < buf.length
  · rw [if_pos h₁, if_neg (by omega), if_pos h₁]
  · rw [if_neg h₁, if_neg h₁]

theorem getElem?_slice : (slice buf off n)[k]? = if k < n then buf[off + k]? else none := by
  rw [slice, List.getElem?_take]
  split
  · rw [List.getElem?_drop]
  · rfl

theorem slice_put_of_disjoint (h : off + bs.length ≤ i ∨ i + n ≤ off) :
    slice (put buf off bs) i n = slice buf i n := by
  refine List.ext_getElem? fun k => ?_
  rw [getElem?_slice, getElem?_slice]
  split
  · rw [getElem?_put, if_neg (by omega)]
  · rfl

/-- Reading back what was stored, and what stands behind it. -/
theorem slice_put_self (h : off + bs.length ≤ buf.length) :
    slice (put buf off bs) off n =
      bs.take n ++ slice buf (off + bs.length) (n - bs.length) := by
  refine List.ext_getElem? fun k => ?_
  rw [getElem?_slice, List.getElem?_append, List.length_take]
  by_cases hn : k < n
  · rw [if_pos hn, getElem?_put, Nat.add_sub_cancel_left]
    by_cases hk : k < bs.length
    · rw [if_pos (by omega), if_pos (by omega), List.getElem?_take_of_lt hn]
    · have hidx : off + bs.length + (k - min n bs.length) = off + k := by omega
      rw [if_neg (by omega), if_neg (by omega), getElem?_slice, if_pos (by omega), hidx]
  · rw [if_neg hn]
    by_cases hk : k < min n bs.length
    · omega
    · rw [if_neg hk, getElem?_slice, if_neg (by omega)]

theorem slice_append_left (rest : List UInt8) (h : off + n ≤ buf.length) :
    slice (buf ++ rest) off n = slice buf off n := by
  refine List.ext_getElem? fun k => ?_
  rw [getElem?_slice, getElem?_slice]
  split
  · rw [List.getElem?_append_left (by omega)]
  · rfl

end Stores

section Numbers

variable {buf : List UInt8} {off i k n x : ℕ}

@[simp] theorem length_leBytes (n x : ℕ) : (leBytes n x).length = n := by
  induction n generalizing x with
  | zero => rfl
  | succ n ih => rw [leBytes, List.length_cons, ih]

/-- **A number that fits is read back.** -/
theorem ofLeBytes_leBytes (h : x < 256 ^ n) : ofLeBytes (leBytes n x) = x := by
  induction n generalizing x with
  | zero =>
    have hx : x = 0 := by simpa using h
    rw [hx]
    rfl
  | succ n ih =>
    have hdiv : x / 256 < 256 ^ n := by
      rw [pow_succ] at h
      omega
    have hb : (UInt8.ofNat (x % 256)).toNat = x % 256 :=
      UInt8.toNat_ofNat_of_lt' (Nat.mod_lt x (by decide))
    have hrest : Nat.ofDigits 256 ((leBytes n (x / 256)).map UInt8.toNat) = x / 256 := ih hdiv
    rw [leBytes, ofLeBytes, List.map_cons, hb, Nat.ofDigits_cons, hrest]
    exact Nat.mod_add_div x 256

/-- **The bytes of a number are those it was read from.** -/
theorem leBytes_ofLeBytes (bs : List UInt8) : leBytes bs.length (ofLeBytes bs) = bs := by
  induction bs with
  | nil => rfl
  | cons b bs ih =>
    have hlt : b.toNat < 256 := b.toNat_lt
    have hcons : ofLeBytes (b :: bs) = b.toNat + 256 * ofLeBytes bs := Nat.ofDigits_cons ..
    have hmod : (b.toNat + 256 * ofLeBytes bs) % 256 = b.toNat := by omega
    have hdiv : (b.toNat + 256 * ofLeBytes bs) / 256 = ofLeBytes bs := by omega
    rw [List.length_cons, leBytes, hcons, hmod, hdiv, ih, UInt8.ofNat_toNat]

@[simp] theorem length_putNat : (putNat buf off n x).length = buf.length := length_put

theorem slice_putNat_of_disjoint (h : off + n ≤ i ∨ i + k ≤ off) :
    slice (putNat buf off n x) i k = slice buf i k :=
  slice_put_of_disjoint (by rwa [length_leBytes])

theorem ofLeBytes_slice_putNat (hx : x < 256 ^ n) (h : off + n ≤ buf.length) :
    ofLeBytes (slice (putNat buf off n x) off n) = x := by
  have hlen : (leBytes n x).length = n := length_leBytes n x
  have hnil : slice buf (off + (leBytes n x).length) (n - (leBytes n x).length) = [] := by
    rw [hlen, Nat.sub_self, slice, List.take_zero]
  rw [putNat, slice_put_self (by rwa [hlen]), hnil, List.append_nil,
    List.take_of_length_le (Nat.le_of_eq hlen), ofLeBytes_leBytes hx]

end Numbers

section Strings

variable {buf str str' : List UInt8} {off off' i k n n' : ℕ}

@[simp] theorem length_strcpy : (strcpy buf off str).length = buf.length := length_put

theorem cstring_append (hs : 0 ∉ str) (rest : List UInt8) : cstring (str ++ 0 :: rest) = str := by
  have hall : ∀ b ∈ str, (b != 0) = true := fun b hb =>
    bne_iff_ne.mpr fun h0 => hs (h0 ▸ hb)
  rw [cstring, List.takeWhile_append_of_pos hall]
  simp

/-- A string does not depend on what stands behind its terminator. -/
theorem cstring_append_of_mem {bs : List UInt8} (h : 0 ∈ bs) (rest : List UInt8) :
    cstring (bs ++ rest) = cstring bs := by
  induction bs with
  | nil => exact absurd h List.not_mem_nil
  | cons b bs ih =>
    rw [List.cons_append, cstring, cstring, List.takeWhile_cons, List.takeWhile_cons]
    split
    · next hb =>
      have hbs : 0 ∈ bs := (List.mem_cons.mp h).resolve_left fun h0 => by simp [← h0] at hb
      rw [show (bs ++ rest).takeWhile (fun b => b != 0) = bs.takeWhile fun b => b != 0 from ih hbs]
    · rfl

theorem noNul_cstring (bs : List UInt8) : 0 ∉ cstring bs := by
  intro h
  have hall : (cstring bs).all (fun b => b != 0) = true := List.all_takeWhile
  exact absurd (List.all_eq_true.mp hall 0 h) (by decide)

theorem length_cstring_lt {bs : List UInt8} {n : ℕ} (h : 0 ∈ bs) (hn : bs.length ≤ n) :
    (cstring bs).length < n := by
  have hle : (cstring bs).length ≤ bs.length := (List.takeWhile_prefix _).length_le
  have hne : (cstring bs).length ≠ bs.length := by
    intro heq
    have hall : cstring bs = bs := (List.takeWhile_prefix _).eq_of_length heq
    exact noNul_cstring bs (by rwa [hall])
  omega

theorem length_slice_le (buf : List UInt8) (off n : ℕ) : (slice buf off n).length ≤ n :=
  List.length_take_le _ _

/-- **A string ends in a field** exactly if it is shorter than the field. -/
theorem zero_mem_slice_iff (h : off + n ≤ buf.length) :
    0 ∈ slice buf off n ↔ (cstring (buf.drop off)).length < n := by
  have hsplit : buf.drop off = slice buf off n ++ (buf.drop off).drop n :=
    (List.take_append_drop n _).symm
  constructor
  · intro h0
    rw [hsplit, cstring_append_of_mem h0]
    exact length_cstring_lt h0 (length_slice_le _ _ _)
  · intro hlt
    by_contra h0
    have hall : ∀ b ∈ slice buf off n, (b != 0) = true := fun b hb =>
      bne_iff_ne.mpr fun hb0 => h0 (hb0 ▸ hb)
    have hlen : (slice buf off n).length = n := by
      rw [slice, List.length_take, List.length_drop]
      omega
    rw [hsplit, cstring, List.takeWhile_append_of_pos hall, List.length_append, hlen] at hlt
    omega

/-- A string in a field of its own leaves the other places alone. -/
theorem slice_strcpy_of_disjoint (hs : str.length < n) (h : off + n ≤ i ∨ i + k ≤ off) :
    slice (strcpy buf off str) i k = slice buf i k := by
  refine slice_put_of_disjoint ?_
  rw [List.length_append, List.length_singleton]
  omega

/-- A field that a string was copied to: the string, the terminator, and what was there. -/
theorem slice_strcpy_self (hs : str.length < n) (h : off + n ≤ buf.length) :
    ∃ rest, slice (strcpy buf off str) off n = str ++ 0 :: rest := by
  have hlen : (str ++ [0]).length = str.length + 1 := by simp
  refine ⟨slice buf (off + (str ++ [0]).length) (n - (str ++ [0]).length), ?_⟩
  rw [strcpy, slice_put_self (by omega), List.take_of_length_le (by omega), List.append_assoc]
  rfl

/-- **A string that fits its field is read back.** -/
theorem cstring_slice_strcpy (hn : 0 ∉ str) (hs : str.length < n) (h : off + n ≤ buf.length) :
    cstring (slice (strcpy buf off str) off n) = str := by
  obtain ⟨rest, hr⟩ := slice_strcpy_self hs h
  rw [hr, cstring_append hn]

theorem strcpy_comm (hs : str.length < n) (hs' : str'.length < n')
    (h : off + n ≤ off' ∨ off' + n' ≤ off) :
    strcpy (strcpy buf off str) off' str' = strcpy (strcpy buf off' str') off str := by
  refine put_comm ?_
  rw [List.length_append, List.length_singleton, List.length_append, List.length_singleton]
  omega

end Strings

end DuckChat
