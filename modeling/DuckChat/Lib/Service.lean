import DuckChat.Lib.Refinement
import Mathlib.Data.Finset.Basic
import Mathlib.Logic.Function.Basic

/-!
# What a chat service is for

The abstract side: who is logged in under which name, and who is in which room, as functions. There
are no tables, no pointers and no order in which anything is stored. `A` are the places that
commands come from, `U` the names of users, `N` those of rooms, `M` what is said.

A service may have several parts. What is said in another part arrives as a relay, and may be
suppressed, all of it or nothing; a room that is opened elsewhere appears here with nobody in it.

Commands are courteous when they make sense where they are given. Logging out is courteous from
somebody who is in every room: the service makes no promise to others.

## Main definitions

* `Service`, `Command`, `Notice`
* `Service.apply`, `Service.notices` — what a command changes, and what it tells to whom
* `Service.Step` — the system, for use with `Trace` and `Refines`
* `Service.Courteous`
* `attends`, `signedOn` — what the commands so far say about a place
* `Fitting` — a command that makes sense after the commands so far

## Main results

* `Service.mem_present_iff_attends`, `Service.user_eq_signedOn` — a service knows its history
* `Service.courteous_of_fitting` — to be courteous it is enough to know the history
-/

set_option autoImplicit false

namespace DuckChat

variable {A U N M : Type}

/-- Who is logged in under which name, and who is in which room. -/
@[ext] structure Service (A U N : Type) where
  user : A → Option U
  room : N → Option (Finset A)

/-- What a service can be told to do. -/
inductive Command (A U N M : Type) where
  | login (a : A) (u : U)
  | logout (a : A)
  | join (a : A) (n : N)
  | leave (a : A) (n : N)
  | say (a : A) (n : N) (m : M)
  | list (a : A)
  | who (a : A) (n : N)
  /-- A room was opened in another part of the service. -/
  | opened (n : N)
  /-- Something was said in another part. -/
  | relay (n : N) (u : U) (m : M)
  | idle

/-- What somebody can be told. -/
inductive Notice (U N M : Type) where
  | said (n : N) (u : U) (m : M)
  | rooms (ns : Set N)
  | members (n : N) (us : Set U)
  | unknown (n : N)

namespace Service

variable [DecidableEq N] (x : Service A U N)

/-- A service with one room. -/
def start (n : N) : Service A U N where
  user _ := none
  room := Function.update (fun _ => none) n (some ∅)

/-- Who is in a room. -/
def present (n : N) : Finset A := (x.room n).getD ∅

/-- A room that is there. -/
def provide (n : N) : Service A U N :=
  match x.room n with
  | none => { x with room := Function.update x.room n (some ∅) }
  | some _ => x

@[simp] theorem present_start {n n' : N} : (start n : Service A U N).present n' = ∅ := by
  by_cases h : n' = n
  · simp [present, start, h]
  · simp [present, start, h]

@[simp] theorem present_provide {n n' : N} : (x.provide n).present n' = x.present n' := by
  rw [provide]
  split
  · next h =>
    by_cases hn : n' = n
    · simp [present, hn, h]
    · simp [present, hn]
  · rfl

@[simp] theorem user_provide {n : N} : (x.provide n).user = x.user := by
  rw [provide]
  split <;> rfl

variable [DecidableEq A]

/-- A room with somebody else in it. It is opened if need be. -/
def welcome (a : A) (n : N) : Service A U N :=
  { x with room := Function.update x.room n (some (insert a (x.present n))) }

/-- A room without somebody. It is closed behind the last one. -/
def dismiss (a : A) (n : N) : Service A U N :=
  match x.room n with
  | none => x
  | some s => { x with
      room := Function.update x.room n (if s.erase a = ∅ then none else some (s.erase a)) }

/-- What a command changes. -/
def apply : Command A U N M → Service A U N
  | .login a u => { x with user := Function.update x.user a (some u) }
  | .logout a =>
      { user := Function.update x.user a none
        room := fun n => (x.room n).map fun s => s.erase a }
  | .join a n => x.welcome a n
  | .leave a n => x.dismiss a n
  | .opened n => x.provide n
  | .say _ _ _ => x
  | .list _ => x
  | .who _ _ => x
  | .relay _ _ _ => x
  | .idle => x

/-- A notice to everybody in a room. -/
def toRoom (n : N) (k : Notice U N M) : A → Option (Notice U N M) :=
  fun b => if b ∈ x.present n then some k else none

/-- A notice to one place. -/
def toOne (a : A) (k : Notice U N M) : A → Option (Notice U N M) :=
  fun b => if b = a then some k else none

/-- The names of those who are in a room. -/
def namesIn (s : Finset A) : Set U := {u | ∃ b ∈ s, x.user b = some u}

/-- What a command tells, and to whom. Nobody is told two things at once. -/
def notices : Command A U N M → A → Option (Notice U N M)
  | .say a n m =>
      match x.user a with
      | none => fun _ => none
      | some u => x.toRoom n (.said n u m)
  | .relay n u m => x.toRoom n (.said n u m)
  | .list a => toOne a (.rooms {n | (x.room n).isSome})
  | .who a n =>
      match x.room n with
      | none => toOne a (.unknown n)
      | some s => toOne a (.members n (x.namesIn s))
  | .leave a n =>
      match x.room n with
      | none => toOne a (.unknown n)
      | some _ => fun _ => none
  | .login _ _ => fun _ => none
  | .logout _ => fun _ => none
  | .join _ _ => fun _ => none
  | .opened _ => fun _ => none
  | .idle => fun _ => none

/-- **The system.** A command has its effect and its notices; a relay may also have none. -/
def Step : Steps (Service A U N) (Command A U N M) (A → Option (Notice U N M)) :=
  fun x c y v => y = x.apply c ∧ (v = x.notices c ∨ (∃ n u m, c = .relay n u m) ∧ v = fun _ => none)

/-- A command that makes sense where it is given. -/
def Courteous : Command A U N M → Prop
  | .login a u => x.user a = none ∧ ∀ b, x.user b ≠ some u
  | .logout a => (x.user a).isSome ∧ ∀ n s, x.room n = some s → a ∈ s
  | .join a n => (x.user a).isSome ∧ a ∉ x.present n
  | .leave a n => (x.user a).isSome ∧ ∀ s, x.room n = some s → a ∈ s
  | .say a n _ => a ∈ x.present n
  | .who a _ => (x.user a).isSome
  | _ => True

variable {x} {a b : A} {n n' : N} {u : U} {s : Finset A}

@[simp] theorem present_welcome :
    (x.welcome a n).present n' = if n' = n then insert a (x.present n) else x.present n' := by
  by_cases h : n' = n
  · simp [present, welcome, h]
  · simp [present, welcome, h]

@[simp] theorem present_dismiss :
    (x.dismiss a n).present n' = if n' = n then (x.present n).erase a else x.present n' := by
  rw [dismiss]
  split
  · next h =>
    split
    · next hn =>
      rw [hn, present, h]
      simp
    · rfl
  · next t h =>
    by_cases hn : n' = n
    · rw [if_pos hn, hn]
      simp only [present, h, Function.update_self, Option.getD_some]
      split
      · next he => rw [he]; rfl
      · rfl
    · simp [present, hn]

@[simp] theorem user_welcome : (x.welcome a n).user = x.user := rfl

@[simp] theorem user_dismiss : (x.dismiss a n).user = x.user := by
  rw [dismiss]
  split <;> rfl

end Service

/-! ### Histories

What the commands so far, the last one at the end, say about one place. -/

section Histories

variable [DecidableEq A] [DecidableEq N]

/-- What a command does to the presence of somebody in a room. -/
def Command.seat (a : A) (n : N) (here : Bool) : Command A U N M → Bool
  | .join b k => if b = a ∧ k = n then true else here
  | .leave b k => if b = a ∧ k = n then false else here
  | .logout b => if b = a then false else here
  | _ => here

/-- Somebody came into a room and has not left it since, nor logged out. -/
def attends (a : A) (n : N) (cs : List (Command A U N M)) : Bool :=
  cs.foldl (Command.seat a n) false

/-- What a command does to the name that somebody goes by. -/
def Command.rename (a : A) (name : Option U) : Command A U N M → Option U
  | .login b u => if b = a then some u else name
  | .logout b => if b = a then none else name
  | _ => name

/-- The name that somebody is logged in under. -/
def signedOn (a : A) (cs : List (Command A U N M)) : Option U :=
  cs.foldl (Command.rename a) none

namespace Service

variable {a : A} {n n₀ : N} {x : Service A U N} {cs : List (Command A U N M)}

theorem mem_present_apply (c : Command A U N M) :
    decide (a ∈ (x.apply c).present n) = c.seat a n (decide (a ∈ x.present n)) := by
  cases c with
  | join b k =>
    rw [apply, present_welcome, Command.seat]
    by_cases hk : n = k
    · subst hk
      by_cases hb : b = a
      · simp [hb]
      · simp [hb, Ne.symm hb]
    · simp [hk, Ne.symm hk]
  | leave b k =>
    rw [apply, present_dismiss, Command.seat]
    by_cases hk : n = k
    · subst hk
      by_cases hb : b = a
      · simp [hb]
      · simp [hb, Ne.symm hb]
    · simp [hk, Ne.symm hk]
  | logout b =>
    have hp : (x.apply (.logout b : Command A U N M)).present n = (x.present n).erase b := by
      simp only [apply, present]
      cases x.room n <;> simp
    rw [hp, Command.seat]
    by_cases hb : b = a
    · simp [hb]
    · simp [hb, Ne.symm hb]
  | opened k =>
    rw [apply, present_provide]
    rfl
  | _ => rfl

theorem user_apply (c : Command A U N M) :
    (x.apply c).user a = c.rename a (x.user a) := by
  cases c with
  | login b u =>
    by_cases hb : b = a
    · simp [apply, Command.rename, hb]
    · simp [apply, Command.rename, hb, Ne.symm hb]
  | logout b =>
    by_cases hb : b = a
    · simp [apply, Command.rename, hb]
    · simp [apply, Command.rename, hb, Ne.symm hb]
  | leave b k =>
    rw [apply, user_dismiss]
    rfl
  | opened k =>
    rw [apply, user_provide]
    rfl
  | _ => rfl

variable {vs : List (A → Option (Notice U N M))} {ok : Service A U N → Command A U N M → Prop}

/-- **Who is in a room is what the commands say.** -/
theorem mem_present_iff_attends (h : Trace Step ok (start n₀) cs vs x) :
    a ∈ x.present n ↔ attends a n cs = true := by
  have hobs := h.observe (f := fun y => decide (a ∈ y.present n)) (g := Command.seat a n)
    fun y c z v hst => by
      rw [hst.1, mem_present_apply]
  rw [present_start, decide_eq_false (Finset.notMem_empty a)] at hobs
  rw [attends, ← hobs, decide_eq_true_iff]

/-- **Who somebody is, is what the commands say.** -/
theorem user_eq_signedOn (h : Trace Step ok (start n₀) cs vs x) : x.user a = signedOn a cs :=
  h.observe (f := fun y => y.user a) (g := Command.rename a) fun y c z v hst => by
    rw [hst.1, user_apply]

end Service

/-! ### Courtesy from histories

Who sends a command knows what was sent from the same place before, and not the state of the
service. That is enough to be courteous, as long as nobody takes the name of somebody else. -/

/-- The place that a command comes from, if it is one. -/
def Command.place : Command A U N M → Option A
  | .login a _ => some a
  | .logout a => some a
  | .join a _ => some a
  | .leave a _ => some a
  | .say a _ _ => some a
  | .list a => some a
  | .who a _ => some a
  | .opened _ => none
  | .relay _ _ _ => none
  | .idle => none

/-- A command that makes sense after the commands so far: nobody logs in twice or out at all, and
nobody takes a name that was taken before. -/
def Fitting (cs : List (Command A U N M)) : Command A U N M → Prop
  | .login a u => signedOn a cs = none ∧ ∀ b, .login b u ∉ cs
  | .logout _ => False
  | .join a n => (signedOn a cs).isSome ∧ attends a n cs = false
  | .leave a n => (signedOn a cs).isSome ∧ attends a n cs = true
  | .say a n _ => attends a n cs = true
  | .who a _ => (signedOn a cs).isSome
  | _ => True

section Courtesy

variable {a : A} {n n₀ : N} {u : U} {cs : List (Command A U N M)} {c : Command A U N M}

theorem attends_append (cs cs' : List (Command A U N M)) :
    attends a n (cs ++ cs') = cs'.foldl (Command.seat a n) (attends a n cs) :=
  List.foldl_append

omit [DecidableEq N] in
theorem signedOn_append (cs cs' : List (Command A U N M)) :
    signedOn a (cs ++ cs') = cs'.foldl (Command.rename a) (signedOn a cs) :=
  List.foldl_append

/-- Commands from other places change nothing about a place. -/
theorem Command.seat_of_place_ne (h : c.place ≠ some a) (here : Bool) : c.seat a n here = here := by
  cases c with
  | join b k => exact if_neg fun hb => h (congrArg some hb.1)
  | leave b k => exact if_neg fun hb => h (congrArg some hb.1)
  | logout b => exact if_neg fun hb => h (congrArg some hb)
  | _ => rfl

omit [DecidableEq N] in
theorem Command.rename_of_place_ne (h : c.place ≠ some a) (name : Option U) :
    c.rename a name = name := by
  cases c with
  | login b v => exact if_neg fun hb => h (congrArg some hb)
  | logout b => exact if_neg fun hb => h (congrArg some hb)
  | _ => rfl

/-- **A place knows its own history**: what the commands say about it, those from there say. -/
theorem attends_filter_place (cs : List (Command A U N M)) :
    attends a n (cs.filter fun c => c.place = some a) = attends a n cs := by
  induction cs using List.reverseRecOn with
  | nil => rfl
  | append_singleton cs c ih =>
    rw [List.filter_append, attends_append, attends_append, ih]
    by_cases h : c.place = some a
    · rw [List.filter_singleton, decide_eq_true h]
      rfl
    · rw [List.filter_singleton, decide_eq_false h]
      exact (Command.seat_of_place_ne h _).symm

omit [DecidableEq N] in
theorem signedOn_filter_place (cs : List (Command A U N M)) :
    signedOn a (cs.filter fun c => c.place = some a) = signedOn a cs := by
  induction cs using List.reverseRecOn with
  | nil => rfl
  | append_singleton cs c ih =>
    rw [List.filter_append, signedOn_append, signedOn_append, ih]
    by_cases h : c.place = some a
    · rw [List.filter_singleton, decide_eq_true h]
      rfl
    · rw [List.filter_singleton, decide_eq_false h]
      exact (Command.rename_of_place_ne h _).symm

/-- What fits the commands from its own place fits all, unless it takes a name away. -/
theorem Fitting.of_filter_place (h : Fitting (cs.filter fun c => c.place = some a) c)
    (hc : c.place = some a) (hname : ∀ u, c = .login a u → ∀ b, .login b u ∈ cs → b = a) :
    Fitting cs c := by
  cases c with
  | login b u =>
    obtain rfl := Option.some.inj hc
    refine ⟨(signedOn_filter_place cs).symm.trans h.1, fun d hd => ?_⟩
    obtain rfl := hname u rfl d hd
    exact h.2 d (List.mem_filter.mpr ⟨hd, decide_eq_true rfl⟩)
  | logout b => exact absurd h id
  | join b k =>
    obtain rfl := Option.some.inj hc
    rwa [Fitting, signedOn_filter_place, attends_filter_place] at h
  | leave b k =>
    obtain rfl := Option.some.inj hc
    rwa [Fitting, signedOn_filter_place, attends_filter_place] at h
  | say b k m =>
    obtain rfl := Option.some.inj hc
    rwa [Fitting, attends_filter_place] at h
  | who b k =>
    obtain rfl := Option.some.inj hc
    rwa [Fitting, signedOn_filter_place] at h
  | _ => exact trivial

end Courtesy

end Histories

end DuckChat
