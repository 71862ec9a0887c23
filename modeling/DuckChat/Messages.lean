import DuckChat.Lib.Table
import DuckChat.Lib.Emit

/-!
# Packets (`duckchat.h`)

The requests a server receives and the texts it sends. Names travel in fixed fields of
`CHANNEL_MAX`, `USERNAME_MAX` and `SAY_MAX` chars and are handled as C strings, so they are
modelled by the type of byte strings that fit such a field with their terminator: `strcmp` is
equality there, and a `strcpy` into a field of the same size cannot overflow.

The three server-to-server packets have one layout on both sides: what a server sends is what the
next server receives. They are therefore one type, `S2S`, used in requests and in datagrams.

## Main definitions

* `CStr n` — a NUL-free byte string of at most `n - 1` bytes
* `Sockaddr` — an address and a port
* `ClientRequest`, `S2S`, `Request` — what arrives
* `Text`, `Datagram` — what is sent
* `Fault`, `Act` — undefined behaviour, and the effect every handler runs in
-/

set_option autoImplicit false

namespace DuckChat

/-! ### C strings -/

/-- A C string that fits a `char` array of size `n` with its terminator. -/
structure CStr (n : ℕ) where
  bytes : List UInt8
  noNul : 0 ∉ bytes
  fits : bytes.length < n
deriving DecidableEq

@[ext] theorem CStr.ext {n : ℕ} {a b : CStr n} (h : a.bytes = b.bytes) : a = b := by
  cases a
  cases b
  simp_all

/-- The bytes of a string literal. -/
def ascii (s : String) : List UInt8 := s.toList.map fun c => c.toNat.toUInt8

def CHANNEL_MAX : ℕ := 32
def USERNAME_MAX : ℕ := 32
def SAY_MAX : ℕ := 64

/-- A channel name. -/
abbrev Name : Type := CStr CHANNEL_MAX

/-- A user name. -/
abbrev Username : Type := CStr USERNAME_MAX

/-- The text of a say, and of an error. -/
abbrev SayText : Type := CStr SAY_MAX

/-- The channel every server starts with and every client joins. -/
def common : Name := ⟨ascii "Common", by decide, by decide⟩

/-! ### Addresses -/

/-- The two fields of a `struct sockaddr_in` that the program compares. -/
structure Sockaddr where
  sAddr : UInt32
  sinPort : UInt16
deriving DecidableEq, Repr

/-- `comp_sockaddr` in `channels.c`, and `addr_cmp` in `helper_functions.c`. -/
def addrCmp (a b : Sockaddr) : Bool := a.sAddr == b.sAddr && a.sinPort == b.sinPort

@[simp] theorem addrCmp_iff {a b : Sockaddr} : addrCmp a b = true ↔ a = b := by
  obtain ⟨x, p⟩ := a
  obtain ⟨y, q⟩ := b
  simp [addrCmp]

/-! ### Requests -/

/-- The identifier of a say, an `unsigned long int`. -/
abbrev Id : Type := UInt64

/-- The payload of `struct request_say_s2s`. -/
structure SayS2S where
  id : Id
  reqUsername : Username
  reqChannel : Name
  reqText : SayText
deriving DecidableEq

/-- The packets servers exchange: `REQ_SERV_JOIN`, `REQ_SERV_LEAVE` and `REQ_SERV_SAY`. -/
inductive S2S where
  | join (reqChannel : Name)
  | leave (reqChannel : Name)
  | say (m : SayS2S)
deriving DecidableEq

/-- The channel that a packet announces. -/
def S2S.joinName : S2S → Option Name
  | .join c => some c
  | _ => none

/-- The channel that a packet says something to. -/
def S2S.sayChannel : S2S → Option Name
  | .say m => some m.reqChannel
  | _ => none

/-- The identifier that a packet carries. -/
def S2S.sayId : S2S → Option Id
  | .say m => some m.id
  | _ => none

/-- The requests of clients. `other` is every code the `switch` does not know, `REQ_KEEP_ALIVE`
among them. -/
inductive ClientRequest where
  | login (reqUsername : Username)
  | logout
  | join (reqChannel : Name)
  | leave (reqChannel : Name)
  | say (reqChannel : Name) (reqText : SayText)
  | list
  | who (reqChannel : Name)
  | other (reqType : ℤ)
deriving DecidableEq

/-- What a datagram may be read as. -/
inductive Request where
  | client (rq : ClientRequest)
  | s2s (m : S2S)
deriving DecidableEq

/-! ### Replies -/

/-- The texts a server sends to clients. A `TXT_WHO` is `whoLen` bytes long whatever it holds. -/
inductive Text where
  | say (txtChannel : Name) (txtUsername : Username) (txtText : SayText)
  | list (txtChannels : List Name)
  | who (txtChannel : Name) (txtNusernames : ℤ) (txtUsers : List Username) (whoLen : ℕ)
  | error (txtError : SayText)
deriving DecidableEq

inductive Payload where
  | text (t : Text)
  | s2s (m : S2S)
deriving DecidableEq

/-- One `sendto`. -/
structure Datagram where
  dest : Sockaddr
  payload : Payload
deriving DecidableEq

/-! ### Undefined behaviour -/

/-- The ways a handler leaves the language: it stops there. -/
inductive Fault where
  /-- A field of a `NULL` user, channel or server is read, or a string whose address was formed
  from one. -/
  | null
  /-- A field of a user that was freed is read. -/
  | freed
  /-- A variable that was never set is used. -/
  | unset
  /-- An element is stored outside its table. -/
  | store (r : OutOfRange)
  /-- An element is read outside its array. -/
  | read
  /-- A variable-length array of negative size is declared. -/
  | size
  /-- An `int` counter overflows. -/
  | counter
  /-- A reply is written past its `malloc`ed block. -/
  | heap
deriving DecidableEq, Repr

/-- The effect of handlers: datagrams sent so far, and a result or a fault. -/
abbrev Act (α : Type) : Type := Emit Datagram Fault α

/-- An append that faults when it misses the table. -/
def store {α : Type} {cap : ℕ} (t : Table α cap) (x : α) : Except Fault (Table α cap) :=
  (t.push x).mapError .store

theorem store_eq_ok_iff {α : Type} {cap : ℕ} {t t' : Table α cap} {x : α} :
    store t x = .ok t' ↔
      0 ≤ t.count ∧ t.count < cap ∧ t'.live = t.live ++ [x] ∧ t'.count = t.count + 1 := by
  rw [← Table.push_eq_ok_iff, store]
  cases t.push x <;> simp [Except.mapError]

theorem exists_store {α : Type} {cap : ℕ} {t : Table α cap} (x : α) (h0 : 0 ≤ t.count)
    (hlt : t.count < cap) : ∃ t', store t x = .ok t' := by
  cases hp : t.push x with
  | ok t' => exact ⟨t', by rw [store, hp]; rfl⟩
  | error e =>
    rcases Table.push_error hp with ⟨-, h⟩ | ⟨-, h⟩
    · omega
    · omega

end DuckChat
